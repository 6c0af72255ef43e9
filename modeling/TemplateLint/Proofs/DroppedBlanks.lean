import TemplateLint.Proofs.PrunedLayout
import TemplateLint.Proofs.Reports

/-!
# Walks without blanks

Blanks stand in open tags only, and nothing stands in a blank. So a walk through a document whose
blanks were dropped meets the other nodes in the order it met them before, under their new ids. Main
statements: what a parsed document looks like (`tidy_ofPieces`) and what a walk collects
(`Tidy.flatMap_visits`).
-/

namespace TemplateLint

open Markup

theorem filterMap_eq_map_of_forall {α β : Type} {new? : α → Option β} {f : α → β} {xs : List α}
    (h : ∀ x ∈ xs, new? x = some (f x)) : xs.filterMap new? = xs.map f := by
  rw [List.filterMap_congr h, List.filterMap_eq_map']

theorem Content.prune_eq_mapChildren {newId? : NodeId → Option NodeId}
    {f : NodeId → NodeId} {c : Content} (h : ∀ x ∈ c.children, newId? x = some (f x)) :
    c.prune newId? = c.mapChildren f := by
  cases c with
  | document children => exact congrArg document (filterMap_eq_map_of_forall h)
  | element first body last isVoid =>
    simp only [children, List.cons_append, List.mem_cons, List.mem_append, Option.mem_toList] at h
    have hlast : last.bind newId? = last.map f := by
      cases last with
      | none => rfl
      | some last => exact h last (.inr (.inr rfl))
    simp only [prune, mapChildren, h first (.inl rfl), Option.getD_some,
      filterMap_eq_map_of_forall fun x hx => h x (.inr (.inl hx)), hlast]
  | openTag opening name children closing =>
    exact congrArg (openTag opening name · closing) (filterMap_eq_map_of_forall h)
  | attr name equals value =>
    cases value with
    | none => rfl
    | some value => simp only [prune, mapChildren, h value (by simp [children]), Option.map_some]
  | attrValue openQuote children closeQuote =>
    exact congrArg (attrValue openQuote · closeQuote) (filterMap_eq_map_of_forall h)
  | _ => rfl

namespace Document

def dropBlanks (d : Document) : Document := d.prune fun _ c => c.isBlank

theorem ofPieces_false (ps : List Piece) : ofPieces false ps = (ofPieces true ps).dropBlanks := by
  have hprune := ofPieces_eq_prune false ps
  simp only [Bool.not_false, Bool.and_true] at hprune
  exact hprune

/-- The id that a node has once the blanks are dropped, unless it is one. -/
def shiftedId? (d : Document) : NodeId → Option NodeId := d.newId? fun _ c => c.isBlank

def shiftedId (d : Document) : NodeId → NodeId := d.keptBefore fun _ c => c.isBlank

/-- What a node is once the blanks are dropped. -/
def shiftedContent (d : Document) : Content → Content
  | .openTag opening name children closing =>
    .openTag opening name (children.filterMap d.shiftedId?) closing
  | c => c.mapChildren d.shiftedId

def shiftedNode (d : Document) (n : Node) : Node := ⟨n.location, d.shiftedContent n.content⟩

def shiftedVisit (d : Document) (v : Visit) : Visit :=
  ⟨d.shiftedId v.id, d.shiftedNode v.node, v.ancestors.map d.shiftedId⟩

/-- There is a live node of this id that is no blank. -/
def Solid (d : Document) (x : NodeId) : Prop := ∃ n, d.get? x = some n ∧ n.content.isBlank = false

/-- In this tree blanks are children of open tags only, and what an attribute names is its value. -/
structure Tidy (d : Document) : Prop where
  forest : d.Forest [d.root]
  solid_root : d.Solid d.root
  solid_child : ∀ {p c : NodeId} {n : Node}, d.get? p = some n → c ∈ n.children →
    (∀ opening name ids closing, n.content ≠ .openTag opening name ids closing) → d.Solid c
  attr_value : ∀ {x value : NodeId} {name : Token} {equals : Option Token},
    d.content? x = some (.attr name equals (some value)) →
      ∃ openQuote children closeQuote, d.content? value =
        some (.attrValue openQuote children closeQuote)
  grounded : d.dropBlanks.Grounded

/-! ## Parsed documents -/

section Roles

variable {d : Document} {ps : List Piece} {x c : NodeId} {n : Node}

theorem solid_of_content? {content : Content} (hx : d.content? x = some content)
    (hb : content.isBlank = false) :
    d.Solid x := by
  obtain ⟨n, hget, rfl⟩ := get?_of_content? hx
  exact ⟨n, hget, hb⟩

theorem HoldsErb.solid {e : Erb} (h : d.HoldsErb x e) : d.Solid x := by
  obtain ⟨_, _, _, hx, -⟩ := h
  exact solid_of_content? hx rfl

theorem HoldsPart.solid {part : ValuePart} (h : d.HoldsPart x part) : d.Solid x := by
  cases part with
  | literal t =>
    obtain ⟨_, hx, -⟩ := h
    exact solid_of_content? hx rfl
  | erb e => exact HoldsErb.solid h

theorem HoldsValue.solid {v : Value} (h : d.HoldsValue x v) : d.Solid x := by
  obtain ⟨_, _, _, hx, -⟩ := h
  exact solid_of_content? hx rfl

theorem HoldsPiece.solid {p : Piece} (h : d.HoldsPiece x p) : d.Solid x := by
  cases p with
  | text t =>
    obtain ⟨_, hx, -⟩ := h
    exact solid_of_content? hx rfl
  | erb e => exact HoldsErb.solid h
  | comment t =>
    obtain ⟨_, _, _, hx, -⟩ := h
    exact solid_of_content? hx rfl
  | doctype t =>
    obtain ⟨_, _, _, hx, -⟩ := h
    exact solid_of_content? hx rfl
  | openTag t =>
    obtain ⟨_, _, _, _, hx, -⟩ := h
    exact solid_of_content? hx rfl
  | closeTag t =>
    obtain ⟨_, _, _, _, hx, -⟩ := h
    exact solid_of_content? hx rfl

theorem Leaves.solid {ids leaves : List NodeId} (h : d.Leaves ids leaves)
    (hleaves : ∀ y ∈ leaves, d.Solid y) (hx : x ∈ ids) : d.Solid x := by
  rcases h.leaf_or_element hx with hleaf | ⟨_, _, _, _, hc⟩
  · exact hleaves x hleaf
  · exact solid_of_content? hc rfl

theorem solid_of_forall₂ {α : Type} {R : NodeId → α → Prop} {ids : List NodeId} {parts : List α}
    (h : List.Forall₂ R ids parts) (hsolid : ∀ y part, R y part → d.Solid y) :
    ∀ y ∈ ids, d.Solid y := by
  induction h with
  | nil => simp
  | cons hr _ ih => exact List.forall_mem_cons.mpr ⟨hsolid _ _ hr, ih⟩

theorem HoldsPiece.solid_child {p : Piece} (h : d.HoldsPiece x p) (hc : c ∈ d.children x)
    (hopen : ∀ opening name ids closing, d.content? x ≠ some (.openTag opening name ids closing)) :
    d.Solid c := by
  -- Nothing stands in a piece other than an open tag.
  obtain ⟨t, rfl⟩ := h.openTag_of_child hc
  obtain ⟨opening, name, ids, closing, hx, -⟩ := h
  exact absurd hx (hopen opening name ids closing)

theorem HoldsValue.solid_child {v : Value} (h : d.HoldsValue x v) (hc : c ∈ d.children x) :
    d.Solid c := by
  obtain ⟨_, ids, _, hx, -, -, hparts⟩ := h
  rw [children_of_content? hx] at hc
  exact solid_of_forall₂ hparts (fun _ _ => HoldsPart.solid) c hc

theorem HoldsTagPart.solid_child {part : TagPart} (h : d.HoldsTagPart x part)
    (hc : c ∈ d.children x) : d.Solid c := by
  cases part with
  | blank t =>
    obtain ⟨_, hx, -⟩ := h
    simp [children_of_content? hx, Content.children] at hc
  | erb e => simp [HoldsErb.children_eq h] at hc
  | attr a =>
    obtain ⟨_, _, value, hx, -, -, hvalue⟩ := h
    obtain rfl : value = some c := by simpa [children_of_content? hx, Content.children] using hc
    generalize a.value = v at hvalue
    cases hvalue with
    | some hv => exact hv.solid

theorem Leaves.solid_child {ids leaves : List NodeId} (h : d.Leaves ids leaves)
    (hp : ∀ y ∈ leaves, ∃ p, d.HoldsPiece y p) (hx : x ∈ ids) (hc : c ∈ d.children x)
    (hopen : ∀ opening name ids closing, d.content? x ≠ some (.openTag opening name ids closing)) :
    d.Solid c := by
  have hleaves (y : NodeId) (hy : y ∈ leaves) : d.Solid y := by
    obtain ⟨p, hpiece⟩ := hp y hy
    exact hpiece.solid
  rcases h.child_cases hx hc with hx | hc | ⟨body, inner, hbody, hinner, hc⟩
  · obtain ⟨p, hpiece⟩ := hp x hx
    exact hpiece.solid_child hc hopen
  · exact hleaves c hc
  · exact hbody.solid (fun y hy => hleaves y (hinner y hy)) hc

theorem SameRole.solid_child (h : d.SameRole d id ps x) (hroot : ∀ y ∈ d.children d.root, d.Solid y)
    (hc : c ∈ d.children x)
    (hopen : ∀ opening name ids closing, d.content? x ≠ some (.openTag opening name ids closing)) :
    d.Solid c := by
  cases h with
  | root he =>
    rw [he] at hc
    exact hroot c hc
  | row hl hp hmem =>
    exact hl.solid_child (fun y hy => (hp y hy).imp fun _ hpiece => hpiece.2.1) hmem hc hopen
  | piece _ hp _ => exact hp.solid_child hc hopen
  | tagPart hp _ => exact hp.solid_child hc
  | value hv _ => exact hv.solid_child hc
  | part hp _ => simp [hp.children_eq] at hc

theorem SameRole.attr_value (h : d.SameRole d id ps x) {children : List NodeId}
    (hroot : d.content? d.root = some (.document children)) {value : NodeId} {name : Token}
    {equals : Option Token} (hx : d.content? x = some (.attr name equals (some value))) :
    ∃ openQuote ids closeQuote, d.content? value = some (.attrValue openQuote ids closeQuote) := by
  rcases h.construct hroot hx (by simp) (by simp)
    with ⟨p, -, hp, -⟩ | ⟨part, hp, -⟩ | ⟨v, hv, -⟩ | ⟨part, hp, -⟩
  · cases p <;> simp [HoldsPiece, HoldsErb, HoldsOpenTag, HoldsCloseTag, hx] at hp
  · cases part with
    | attr a =>
      obtain ⟨_, _, _, hx', -, -, hvalue⟩ := hp
      rw [hx] at hx'
      cases hx'
      generalize a.value = v at hvalue
      cases hvalue with
      | some hv =>
        obtain ⟨openQuote, ids, closeQuote, hc, -⟩ := hv
        exact ⟨openQuote, ids, closeQuote, hc⟩
    | _ => simp [HoldsTagPart, HoldsErb, hx] at hp
  · simp [HoldsValue, hx] at hv
  · cases part <;> simp [HoldsPart, HoldsErb, hx] at hp

end Roles

theorem tidy_ofPieces (ps : List Piece) : (ofPieces true ps).Tidy := by
  have hforest := (sound_ofPieces true ps).1
  obtain ⟨children, hroot, leaves, hleaves, hps⟩ := holds_ofPieces ps
  have hsolid := solid_of_forall₂ hps fun _ _ => HoldsPiece.solid
  have hrole {x : NodeId} (hx : (ofPieces true ps).isLive x = true) :=
    (holds_ofPieces ps).sameRole hforest hx
  refine ⟨hforest, solid_of_content? hroot rfl, fun hget hc hopen => ?_, fun hx => ?_, ?_⟩
  · refine (hrole (isLive_of_get? hget)).solid_child (fun y hy => ?_)
      (by rwa [children_of_get? hget]) fun _ _ _ _ hx => ?_
    · rw [children_of_content? hroot] at hy
      exact hleaves.solid hsolid hy
    · rw [content?_of_get? hget] at hx
      exact hopen _ _ _ _ (Option.some.inj hx)
  · obtain ⟨n, hget, -⟩ := get?_of_content? hx
    exact (hrole (isLive_of_get? hget)).attr_value hroot hx
  · rw [← ofPieces_false]
    exact (sound_ofPieces false ps).1.grounded

/-! ## Nodes -/

section Nodes

variable {d : Document} {x c : NodeId} {n : Node}

theorem isKept_of_solid (h : d.Solid x) : d.isKept (fun _ c => c.isBlank) x = true := by
  obtain ⟨n, hget, hblank⟩ := h
  obtain ⟨slot, hslot, hlive⟩ := exists_slot_of_isLive (isLive_of_get? hget)
  rw [get?_of_slot hslot, if_pos hlive] at hget
  obtain rfl := Option.some.inj hget
  exact isKept_iff.mpr ⟨slot, hslot, hblank⟩

theorem Solid.shiftedId? (h : d.Solid x) : d.shiftedId? x = some (d.shiftedId x) :=
  newId?_of_isKept (isKept_of_solid h)

theorem shiftedId?_of_blank (hget : d.get? x = some n) (hblank : n.content.isBlank = true) :
    d.shiftedId? x = none := by
  obtain ⟨slot, hslot, hlive⟩ := exists_slot_of_isLive (isLive_of_get? hget)
  rw [get?_of_slot hslot, if_pos hlive] at hget
  obtain rfl := Option.some.inj hget
  have hgone : d.isKept (fun _ c => c.isBlank) x = false := by simp [isKept, hslot, hblank]
  rw [Document.shiftedId?, newId?, hgone]
  rfl

theorem Tidy.prune_content (h : d.Tidy) (hget : d.get? x = some n) :
    n.content.prune d.shiftedId? = d.shiftedContent n.content := by
  have hsolid := fun c hc hopen => (h.solid_child (c := c) hget hc hopen).shiftedId?
  cases hn : n.content with
  | openTag opening name children closing => rfl
  | _ =>
    exact Content.prune_eq_mapChildren fun c hc =>
      hsolid c (by rwa [Node.children, hn]) (by simp [hn])

theorem Tidy.get?_shifted (h : d.Tidy) (hget : d.get? x = some n)
    (hblank : n.content.isBlank = false) :
    d.dropBlanks.get? (d.shiftedId x) = some (d.shiftedNode n) := by
  have hslot' := slots_prune (isKept_of_solid ⟨n, hget, hblank⟩)
  have hcontent := h.prune_content hget
  obtain ⟨slot, hslot, hlive⟩ := exists_slot_of_isLive (isLive_of_get? hget)
  rw [get?_of_slot hslot, if_pos hlive] at hget
  obtain rfl := Option.some.inj hget
  rw [hslot, Option.map_some] at hslot'
  rw [dropBlanks, shiftedId, get?_of_slot hslot', shiftedNode, ← hcontent]
  exact if_pos hlive

theorem Tidy.children_shifted (h : d.Tidy) (hget : d.get? x = some n) :
    (d.shiftedNode n).children = n.children.filterMap d.shiftedId? := by
  have hsolid := fun c hc hopen => (h.solid_child (c := c) hget hc hopen).shiftedId?
  obtain ⟨location, content⟩ := n
  by_cases hopen : ∃ opening name ids closing, content = .openTag opening name ids closing
  · obtain ⟨opening, name, ids, closing, rfl⟩ := hopen
    rfl
  · have hshift : d.shiftedContent content = content.mapChildren d.shiftedId := by
      cases content with
      | openTag opening name ids closing => exact absurd ⟨_, _, _, _, rfl⟩ hopen
      | _ => rfl
    have hmap : content.children.filterMap d.shiftedId? = content.children.map d.shiftedId :=
      filterMap_eq_map_of_forall fun c hc => hsolid c hc (by simpa using hopen)
    rw [shiftedNode, Node.children, hshift, Content.children_mapChildren, Node.children, hmap]

theorem Tidy.root_shifted (h : d.Tidy) : d.dropBlanks.root = d.shiftedId d.root := by
  change (d.shiftedId? d.root).getD d.root = _
  rw [h.solid_root.shiftedId?]
  rfl

theorem Tidy.location?_shifted (h : d.Tidy) (hx : d.Solid x) :
    d.dropBlanks.location? (d.shiftedId x) = d.location? x := by
  obtain ⟨n, hget, hblank⟩ := hx
  rw [location?, location?, h.get?_shifted hget hblank, hget]
  rfl

theorem Tidy.children_value (h : d.Tidy) {value : NodeId} {name : Token} {equals : Option Token}
    (hx : d.content? x = some (.attr name equals (some value))) :
    d.dropBlanks.children (d.shiftedId value) = (d.children value).map d.shiftedId ∧
      d.Solid value ∧ ∀ c ∈ d.children value, d.Solid c := by
  obtain ⟨openQuote, ids, closeQuote, hvalue⟩ := h.attr_value hx
  obtain ⟨⟨location, content⟩, hget, rfl⟩ := get?_of_content? hvalue
  refine ⟨?_, solid_of_content? hvalue rfl, fun c hc => ?_⟩
  · rw [children_of_get? (h.get?_shifted hget rfl), children_of_get? hget]
    rfl
  · rw [children_of_get? hget] at hc
    exact h.solid_child hget hc (by simp)

theorem Tidy.tagName?_shifted (h : d.Tidy) (hx : d.Solid x) :
    d.dropBlanks.tagName? (d.shiftedId x) = d.tagName? x := by
  obtain ⟨⟨location, content⟩, hget, hblank⟩ := hx
  rw [tagName?, tagName?, h.get?_shifted hget hblank, hget]
  cases content with
  | element first body last isVoid =>
    obtain ⟨⟨place, tag⟩, hfirst, htag⟩ :=
      h.solid_child hget (c := first) (by simp [Node.children, Content.children]) (by simp)
    simp only [shiftedNode, shiftedContent, Content.mapChildren, h.get?_shifted hfirst htag, hfirst]
    cases tag <;> rfl
  | _ => rfl

end Nodes

/-! ## Walks -/

section Walks

variable {d : Document} {skip skip' : Visit → Bool}

/-- The visit is of a node that stays, below nodes that stay. -/
structure Meets (d : Document) (v : Visit) : Prop where
  here : d.get? v.id = some v.node
  solid : v.node.content.isBlank = false
  above : ∀ a ∈ v.ancestors, d.Solid a

theorem flatMap_filterMap_of_forall {α β γ δ : Type} {ids : List α}
    {new? : α → Option β} {f : α → List γ} {f' : β → List δ} {g : γ → δ}
    (h : ∀ x ∈ ids, (new? x).toList.flatMap f' = (f x).map g) :
    (ids.filterMap new?).flatMap f' = (ids.flatMap f).map g := by
  induction ids with
  | nil => rfl
  | cons x rest ih =>
    rw [List.forall_mem_cons] at h
    rw [List.flatMap_cons, List.map_append, ← h.1, ← ih h.2, List.filterMap_cons]
    cases new? x <;> simp

variable {α β : Type} {f : Visit → List α} {f' : Visit → List β} {g : α → β}

theorem Tidy.flatMap_visitsTo (h : d.Tidy)
    (hskip : ∀ v, d.Meets v → skip' (d.shiftedVisit v) = skip v)
    (hblank : ∀ x location t ancestors, f ⟨x, ⟨location, .whitespace t⟩, ancestors⟩ = [])
    (hf : ∀ v, d.Meets v → f' (d.shiftedVisit v) = (f v).map g) (depth : Nat)
    {ancestors : List NodeId} {x : NodeId} (habove : ∀ a ∈ ancestors, d.Solid a) (hx : d.Solid x) :
    (d.dropBlanks.visitsTo skip' depth (ancestors.map d.shiftedId) (d.shiftedId x)).flatMap f' =
      ((d.visitsTo skip depth ancestors x).flatMap f).map g := by
  induction depth generalizing ancestors x with
  | zero => rfl
  | succ depth ih =>
    obtain ⟨n, hget, hn⟩ := hx
    have hmeets : d.Meets ⟨x, n, ancestors⟩ := ⟨hget, hn, habove⟩
    have hself : (⟨d.shiftedId x, d.shiftedNode n, ancestors.map d.shiftedId⟩ : Visit) =
        d.shiftedVisit ⟨x, n, ancestors⟩ := rfl
    rw [visitsTo_succ hget, visitsTo_succ (h.get?_shifted hget hn),
      List.flatMap_cons, List.flatMap_cons, List.map_append, hself, hf _ hmeets, hskip _ hmeets]
    congr 1
    split
    · rfl
    · rw [h.children_shifted hget, List.flatMap_assoc, List.flatMap_assoc]
      apply flatMap_filterMap_of_forall
      intro c hc
      obtain ⟨m, hm⟩ := isLive_iff.mp (h.forest.isLive_of_child (by rwa [children_of_get? hget]))
      by_cases hsolid : d.Solid c
      · rw [hsolid.shiftedId?, Option.toList_some, List.flatMap_singleton]
        exact ih (List.forall_mem_cons.mpr ⟨⟨n, hget, hn⟩, habove⟩) hsolid
      · -- A blank is visited with nothing below it.
        obtain ⟨t, ht⟩ : ∃ t, m.content = .whitespace t := by
          cases hm' : m.content with
          | whitespace t => exact ⟨t, rfl⟩
          | _ => exact absurd ⟨m, hm, by rw [hm']; rfl⟩ hsolid
        obtain ⟨location, content⟩ := m
        obtain rfl : content = .whitespace t := ht
        have hnil : (d.visitsTo skip depth (x :: ancestors) c).flatMap f = [] := by
          cases depth with
          | zero => rfl
          | succ depth =>
            rw [visitsTo_succ hm, List.flatMap_cons, hblank]
            simp [Node.children, Content.children]
        rw [shiftedId?_of_blank hm rfl, hnil]
        rfl

theorem Tidy.flatMap_visits (h : d.Tidy)
    (hskip : ∀ v, d.Meets v → skip' (d.shiftedVisit v) = skip v)
    (hblank : ∀ x location t ancestors, f ⟨x, ⟨location, .whitespace t⟩, ancestors⟩ = [])
    (hf : ∀ v, d.Meets v → f' (d.shiftedVisit v) = (f v).map g) :
    (d.dropBlanks.visits skip').flatMap f' = ((d.visits skip).flatMap f).map g := by
  have hsame :=
    h.flatMap_visitsTo hskip hblank hf d.slots.size (List.forall_mem_nil d.Solid) h.solid_root
  obtain ⟨n, hget, hn⟩ := h.solid_root
  obtain ⟨rank, hbound, hrank⟩ := h.grounded
  have hroot := hbound _ (isLive_of_get? (h.get?_shifted hget hn))
  have hsize : d.dropBlanks.slots.size ≤ d.slots.size := by
    rw [dropBlanks, size_prune, keptBefore]
    exact List.countP_le_length.trans_eq List.length_range
  have hdepth : d.dropBlanks.visitsTo skip' d.dropBlanks.slots.size [] (d.shiftedId d.root) =
      d.dropBlanks.visitsTo skip' d.slots.size [] (d.shiftedId d.root) :=
        visitsTo_eq_of_rank hrank hroot (by omega)
  rw [visits_eq, visits_eq, h.root_shifted, ← hsame, hdepth]
  rfl

end Walks

end Document

end TemplateLint
