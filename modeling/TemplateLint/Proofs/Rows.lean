import TemplateLint.Proofs.Holding

/-!
# Rows of nodes

Elements end innermost first, so in a body an element without a close tag has nothing behind it. A
row is such a body. It knows the names of the elements around it and of the unclosed ones at its
end. Main statement: the top of the document of some pieces is a row (`row_ofPieces`).
-/

namespace TemplateLint

open Markup

/-! ## Tags as they are laid out -/

def Markup.TagPart.isShown (keep : Bool) : TagPart → Bool
  | .blank _ => keep
  | _ => true

/-- The tag without its blanks, unless they are kept. -/
def Markup.OpenTag.shown (keep : Bool) (t : OpenTag) : OpenTag :=
  { t with parts := t.parts.filter (TagPart.isShown keep) }

namespace Layout

theorem makes_shownPart (keep : Bool) (part : TagPart) :
    Makes (tagPart keep part) fun d ids =>
      List.Forall₂ d.HoldsTagPart ids ([part].filter (TagPart.isShown keep)) := by
  cases part with
  | blank t =>
    cases keep with
    | true => exact makes_tagPart (.blank t)
    | false => exact ⟨fun d => spread_token _ d, fun d => .nil⟩
  | erb e => exact ⟨(makes_erb e).spread, fun d => .cons ((makes_erb e).result d) .nil⟩
  | attr a => exact ⟨(makes_attr a).spread, fun d => .cons ((makes_attr a).result d) .nil⟩

theorem makes_shownParts (keep : Bool) (parts : List TagPart) :
    Makes (tagParts keep parts) fun d ids =>
      List.Forall₂ d.HoldsTagPart ids (parts.filter (TagPart.isShown keep)) := by
  induction parts with
  | nil => exact ⟨fun d => .refl d, fun d => .nil⟩
  | cons part rest ih =>
    have hpart := makes_shownPart keep part
    constructor
    · intro d
      exact (hpart.spread d).trans (ih.spread _)
    · intro d
      rw [← List.singleton_append, List.filter_append]
      exact List.rel_append
        ((hpart.result d).imp fun _ _ => (ih.spread _).keeps.holdsTagPart) (ih.result _)

theorem makes_shownTag (keep : Bool) (t : OpenTag) :
    Makes (openTag keep t) fun d id => d.HoldsPiece id (.openTag (t.shown keep)) := by
  have hparts := makes_shownParts keep t.parts
  constructor
  · intro d
    exact ((((spread_token _ d).trans (spread_token _ _)).trans (hparts.spread _)).trans
      (spread_token _ _)).trans
      (spread_node _ _ _)
  · intro d
    refine ⟨_, _, _, _, content?_node _ _ _, chars_token _ _, chars_token _ _, ?_, chars_token _ _⟩
    exact (hparts.result _).imp fun _ _ =>
      ((spread_token _ _).trans (spread_node _ _ _)).keeps.holdsTagPart

end Layout

/-! ## Rows -/

namespace Document

/-- A row of nodes inside elements with the names `enclosing`; only its last node may be
unclosed. -/
inductive Row (d : Document) : (enclosing : Nesting) → List NodeId → (trail : Nesting) → Prop where
  | nil {enclosing : Nesting} : Row d enclosing [] []
  | piece {enclosing : Nesting} {ids : List NodeId} {x : NodeId} {p : Piece}
      (hrow : Row d enclosing ids []) (hp : d.HoldsPiece x p) (hopen : ∀ t, p ≠ .openTag t)
      (hstray : ∀ t, p = .closeTag t → t.lowerName ∉ enclosing) :
      Row d enclosing (ids ++ [x]) []
  | empty {enclosing : Nesting} {ids : List NodeId} {x first : NodeId} {t : OpenTag}
      (hrow : Row d enclosing ids []) (hx : d.content? x = some (.element first [] none t.isVoid))
      (htag : d.HoldsPiece first (.openTag t)) (hopens : t.opens = false) :
      Row d enclosing (ids ++ [x]) []
  | closed {enclosing trail : Nesting} {ids body : List NodeId} {x first last : NodeId}
      {t : OpenTag} {t' : CloseTag} (hrow : Row d enclosing ids [])
      (hx : d.content? x = some (.element first body (some last) false))
      (htag : d.HoldsPiece first (.openTag t)) (hopens : t.opens = true)
      (hbody : Row d (t.lowerName :: enclosing) body trail)
      (hlast : d.HoldsPiece last (.closeTag t')) (hname : t'.lowerName = t.lowerName)
      (htrail : t.lowerName ∉ trail) :
      Row d enclosing (ids ++ [x]) []
  -- The trail names the unclosed elements that end with the row, outermost first.
  | unclosed {enclosing trail : Nesting} {ids body : List NodeId} {x first : NodeId} {t : OpenTag}
      (hrow : Row d enclosing ids []) (hx : d.content? x = some (.element first body none false))
      (htag : d.HoldsPiece first (.openTag t)) (hopens : t.opens = true)
      (hbody : Row d (t.lowerName :: enclosing) body trail) :
      Row d enclosing (ids ++ [x]) (t.lowerName :: trail)

variable {d d' : Document} {enclosing trail : Nesting} {ids ids' : List NodeId}

theorem Row.append (h : d.Row enclosing ids []) (h' : d.Row enclosing ids' trail) :
    d.Row enclosing (ids ++ ids') trail := by
  induction h' with
  | nil =>
    rw [List.append_nil]
    exact h
  | piece _ hp hopen hstray ih =>
    rw [← List.append_assoc]
    exact .piece (ih h) hp hopen hstray
  | empty _ hx htag hopens ih =>
    rw [← List.append_assoc]
    exact .empty (ih h) hx htag hopens
  | closed _ hx htag hopens hbody hlast hname htrail ih _ =>
    rw [← List.append_assoc]
    exact .closed (ih h) hx htag hopens hbody hlast hname htrail
  | unclosed _ hx htag hopens hbody ih _ =>
    rw [← List.append_assoc]
    exact .unclosed (ih h) hx htag hopens hbody

theorem Keeps.row (hk : d.Keeps d') (h : d.Row enclosing ids trail) :
    d'.Row enclosing ids trail := by
  induction h with
  | nil => exact .nil
  | piece _ hp hopen hstray ih => exact .piece ih (hk.holdsPiece hp) hopen hstray
  | empty _ hx htag hopens ih => exact .empty ih (hk _ _ hx) (hk.holdsPiece htag) hopens
  | closed _ hx htag hopens _ hlast hname htrail ih ihbody =>
    exact .closed ih (hk _ _ hx) (hk.holdsPiece htag) hopens ihbody
      (hk.holdsPiece hlast) hname htrail
  | unclosed _ hx htag hopens _ ih ihbody =>
    exact .unclosed ih (hk _ _ hx) (hk.holdsPiece htag) hopens ihbody

/-! ## Open elements -/

def openNames (frames : List OpenElement) : Nesting := frames.map (·.name)

/-- The nodes on top and in each open element so far are rows in which nothing is unclosed. -/
def InRows (d : Document) (top : List NodeId) : List OpenElement → Prop
  | [] => d.Row [] top []
  | e :: outer =>
    (∃ t, d.HoldsPiece e.openTag (.openTag t) ∧ t.opens = true ∧ t.lowerName = e.name) ∧
      d.Row (e.name :: openNames outer) e.body.toList [] ∧ InRows d top outer

theorem InRows.mono {top : List NodeId} {frames : List OpenElement}
    (h : d.InRows top frames) (hk : d.Keeps d') :
    d'.InRows top frames := by
  induction frames with
  | nil => exact hk.row h
  | cons e outer ih =>
    obtain ⟨⟨t, htag, hopens, hname⟩, hbody, houter⟩ := h
    exact ⟨⟨t, hk.holdsPiece htag, hopens, hname⟩, hk.row hbody, ih houter⟩

end Document

namespace Draft

variable {d d' : Draft}

def InRows (d : Draft) : Prop := (d.view 0).InRows d.top.toList d.openElements

theorem InRows.spread (h : d.InRows) (he : Extends d d') : d'.InRows := by
  unfold InRows
  rw [he.openElements, he.top]
  exact Document.InRows.mono h he.keeps

theorem InRows.attach {id : NodeId} (h : d.InRows)
    (hid : (d.view 0).Row (Document.openNames d.openElements) [id] []) :
    (d.attach id).InRows := by
  unfold InRows at h
  unfold Draft.attach
  split
  · rename_i inner outer hopen
    rw [hopen] at h hid
    obtain ⟨htag, hbody, houter⟩ := h
    refine ⟨htag, ?_, houter⟩
    rw [Array.toList_push]
    exact hbody.append hid
  · rename_i hopen
    rw [hopen] at h hid
    unfold InRows
    rw [hopen]
    have htop : (d.view 0).Row [] (d.top.toList ++ [id]) [] := Document.Row.append h hid
    rw [← Array.toList_push] at htop
    exact htop

section
variable {e : OpenElement} {outer trail : Nesting} {inner : Array NodeId} (location : Location)
  (htag : ∃ t, (d.view 0).HoldsPiece e.openTag (.openTag t) ∧ t.opens = true ∧ t.lowerName = e.name)
  (hbody : (d.view 0).Row (e.name :: outer) e.body.toList [])
    (hinner : (d.view 0).Row (e.name :: outer) inner.toList trail)
include htag hbody hinner

theorem row_endUnclosed :
    let pushed := d.push location (.element e.openTag (e.body ++ inner).toList none false)
    (pushed.2.view 0).Row outer [pushed.1] (e.name :: trail) := by
  intro pushed
  obtain ⟨t, htag, hopens, hname⟩ := htag
  have hkeeps := d.keeps_push location (.element e.openTag (e.body ++ inner).toList none false)
  have hall : (d.view 0).Row (t.lowerName :: outer) (e.body ++ inner).toList trail := by
    rw [Array.toList_append, hname]
    exact hbody.append hinner
  rw [← hname]
  exact .unclosed .nil (d.content?_push location _)
    (hkeeps.holdsPiece htag) hopens (hkeeps.row hall)

theorem row_endClosed {tag : NodeId} {t' : CloseTag}
    (hclose : (d.view 0).HoldsPiece tag (.closeTag t')) (hname' : t'.lowerName = e.name)
    (htrail : e.name ∉ trail) :
    let pushed := d.push location (.element e.openTag (e.body ++ inner).toList (some tag) false)
    (pushed.2.view 0).Row outer [pushed.1] [] := by
  intro pushed
  obtain ⟨t, htag, hopens, hname⟩ := htag
  have hkeeps :=
    d.keeps_push location (.element e.openTag (e.body ++ inner).toList (some tag) false)
  have hall : (d.view 0).Row (t.lowerName :: outer) (e.body ++ inner).toList trail := by
    rw [Array.toList_append, hname]
    exact hbody.append hinner
  refine .closed .nil (d.content?_push location _) (hkeeps.holdsPiece htag) hopens (hkeeps.row hall)
    (hkeeps.holdsPiece hclose) (hname'.trans hname.symm) ?_
  rw [hname]
  exact htrail

end

end Draft

/-! ## Steps of the layout -/

namespace Layout

open Document

variable {d : Draft}

theorem inRows_attach {p : Piece} (step : Layout NodeId)
    (hstep : Makes step fun d id => d.HoldsPiece id p) (hopen : ∀ t, p ≠ .openTag t)
    (hstray : ∀ t, p = .closeTag t → t.lowerName ∉ openNames d.openElements) (h : d.InRows) :
    ((step d).2.attach (step d).1).InRows := by
  apply (h.spread (hstep.spread d)).attach
  rw [(hstep.spread d).openElements]
  exact .piece .nil (hstep.result d) hopen hstray

theorem inRows_beginElement (keep : Bool) (t : OpenTag) (h : d.InRows) :
    (beginElement t d.here (openTag keep t d).1 (openTag keep t d).2).2.InRows := by
  have htag := makes_shownTag keep t
  have hafter := h.spread (htag.spread d)
  unfold beginElement
  split
  · rename_i hopens
    exact ⟨⟨t.shown keep, htag.result d, hopens, rfl⟩, .nil, hafter⟩
  · rename_i hopens
    have hnode :=
      spread_node d.here (.element (openTag keep t d).1 [] none t.isVoid) (openTag keep t d).2
    refine (hafter.spread hnode).attach ?_
    exact .empty (t := t.shown keep) .nil (content?_node d.here _ (openTag keep t d).2)
      (hnode.keeps.holdsPiece (htag.result d)) (Bool.eq_false_iff.mpr hopens)

theorem inRows_endElements {tag : NodeId} (before : Position) {t : CloseTag}
    (frames : List OpenElement) (hname : ∃ e ∈ frames, e.name = t.lowerName) {d : Draft}
    (inner : Array NodeId) {trail : Nesting} (h : (d.view 0).InRows d.top.toList frames)
    (hinner : (d.view 0).Row (openNames frames) inner.toList trail) (htrail : t.lowerName ∉ trail)
    (htag : (d.view 0).HoldsPiece tag (.closeTag t)) :
    (endElements t.lowerName tag before inner frames d).2.InRows := by
  -- `inner` are the elements just ended, and none of them has the name.
  induction frames generalizing d inner trail with
  | nil => simp at hname
  | cons e outer ih =>
    obtain ⟨hopen, hbody, houter⟩ := h
    rw [endElements]
    split
    · rename_i heq
      have helement := Draft.row_endClosed ⟨e.start, d.here⟩ hopen hbody hinner htag heq.symm
        (by rw [heq]; exact htrail)
      have houter' :
          ({ (node e.start (.element e.openTag (e.body ++ inner).toList (some tag) false) d).2 with
          openElements := outer } : Draft).InRows := houter.mono (d.keeps_push _ _)
      exact houter'.attach helement
    · rename_i hne
      have hkeeps :=
        d.keeps_push ⟨e.start, before⟩ (.element e.openTag (e.body ++ inner).toList none false)
      have hrest : ∃ e ∈ outer, e.name = t.lowerName := by
        obtain ⟨e', hmem, he'⟩ := hname
        rcases List.mem_cons.mp hmem with rfl | hmem
        · exact absurd he' hne
        · exact ⟨e', hmem, he'⟩
      have hended := Draft.row_endUnclosed ⟨e.start, before⟩ hopen hbody hinner
      refine ih hrest (d := (d.push _ _).2) #[_] (houter.mono hkeeps) hended ?_
        (hkeeps.holdsPiece htag)
      rw [List.mem_cons, not_or]
      exact ⟨fun heq => hne heq.symm, htrail⟩

theorem inRows_endByTag (t : CloseTag) (h : d.InRows) :
    (endByTag t d.here (closeTag t d).1 (closeTag t d).2).2.InRows := by
  have htag := makes_closeTag t
  have hsame := (htag.spread d).openElements
  change ((if _ then _ else _ : Layout Unit) _).2.InRows
  split
  · rename_i hany
    obtain ⟨e, he, hname⟩ := List.any_eq_true.mp hany
    exact inRows_endElements d.here _ ⟨e, he, by simpa using hname⟩ #[]
      (h.spread (htag.spread d)) .nil (by simp)
      (htag.result d)
  · rename_i hnone
    rw [hsame] at hnone
    apply inRows_attach (closeTag t) htag (by simp) _ h
    rintro t' heq hmem
    obtain rfl := Piece.closeTag.inj heq
    obtain ⟨e, he, hname⟩ := List.mem_map.mp hmem
    exact hnone (List.any_eq_true.mpr ⟨e, he, by simpa using hname⟩)

theorem row_endAll (frames : List OpenElement) {d : Draft} (inner : Array NodeId) {trail : Nesting}
    (h : (d.view 0).InRows d.top.toList frames)
    (hinner : (d.view 0).Row (openNames frames) inner.toList trail) :
    ∃ trail,
      ((endAll inner frames d).2.view 0).Row [] (endAll inner frames d).2.top.toList trail := by
  induction frames generalizing d inner trail with
  | nil =>
    have htop : (d.view 0).Row [] (d.top ++ inner).toList trail := by
      rw [Array.toList_append]
      exact Row.append h hinner
    exact ⟨trail, htop⟩
  | cons e outer ih =>
    obtain ⟨hopen, hbody, houter⟩ := h
    have hkeeps :=
      d.keeps_push ⟨e.start, d.here⟩ (.element e.openTag (e.body ++ inner).toList none false)
    have hended := Draft.row_endUnclosed ⟨e.start, d.here⟩ hopen hbody hinner
    exact ih (d := (d.push _ _).2) #[_] (houter.mono hkeeps) hended

theorem inRows_piece (keep : Bool) (p : Piece) (h : d.InRows) : (piece keep p d).2.InRows := by
  cases p with
  | text content => exact inRows_attach _ (makes_text content) (by simp) (by simp) h
  | erb e => exact inRows_attach (p := .erb e) (erb e) (makes_erb e) (by simp) (by simp) h
  | comment content =>
    refine inRows_attach (p := .comment content)
      (threeNode commentOpening content commentClosing .comment)
      ⟨spread_threeNode _ _ _ _, ?_⟩ (by simp) (by simp) h
    intro d
    exact ⟨_, _, _, content?_node _ _ _, chars_token _ _, chars_token _ _, chars_token _ _⟩
  | doctype content =>
    refine inRows_attach (p := .doctype content)
      (threeNode doctypeOpening content doctypeClosing .doctype)
      ⟨spread_threeNode _ _ _ _, ?_⟩ (by simp) (by simp) h
    intro d
    exact ⟨_, _, _, content?_node _ _ _, chars_token _ _, chars_token _ _, chars_token _ _⟩
  | openTag t => exact inRows_beginElement keep t h
  | closeTag t => exact inRows_endByTag t h

theorem inRows_pieces (keep : Bool) (ps : List Piece) (h : d.InRows) :
    (pieces keep ps d).2.InRows := by
  induction ps generalizing d with
  | nil => exact h
  | cons p rest ih => exact ih (inRows_piece keep p h)

end Layout

theorem row_ofPieces (keep : Bool) (ps : List Piece) :
    ∃ children trail, (Document.ofPieces keep ps).content? (Document.ofPieces keep ps).root =
      some (.document children) ∧
      (Document.ofPieces keep ps).Row [] children trail := by
  have hempty : Draft.empty.InRows := Document.Row.nil
  obtain ⟨trail, hrow⟩ := Layout.row_endAll _ #[] (Layout.inRows_pieces keep ps hempty) .nil
  obtain ⟨hkeeps, hroot⟩ := keeps_ofPieces keep ps
  exact ⟨_, trail, hroot, hkeeps.row hrow⟩

end TemplateLint
