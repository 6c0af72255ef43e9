import TemplateLint.Proofs.DroppedValue
import TemplateLint.Proofs.HeldPieces
import TemplateLint.Proofs.Locality
import TemplateLint.Proofs.Locations
import TemplateLint.Proofs.Mending
import TemplateLint.Proofs.Reports

/-!
# Boolean attributes without their values

The fix for a boolean attribute takes its value out of the text. What comes behind the value then
stands right behind the name. Main statement: the text reads back as the same tree without the value
exactly if the two cannot be read together (`parse_dropValue_iff`).
-/

namespace TemplateLint

open Markup

/-! ## Where an attribute stands -/

theorem Document.Exact.location_front {d : Document} (he : d.Exact) {a x : NodeId}
    {pre : List Char} (h : d.Front a x pre) {l : Location} (hl : d.location? a = some l) :
    ∃ l', d.location? x = some l' ∧ l'.start = l.start.advance pre := by
  induction h generalizing l with
  | refl => exact ⟨l, hl, rfl⟩
  | @head a b x node front back pre hget hitems _ ih =>
    obtain ⟨run, hrun, hruns, -⟩ := he a node hget
    rw [hitems, List.map_eq_append_iff] at hrun
    obtain ⟨before, rest, rfl, hbefore, hrest⟩ := hrun
    obtain ⟨s, after, rfl, hs, -⟩ := List.map_eq_cons_iff.mp hrest
    rw [runs_append] at hruns
    obtain ⟨hfront, ⟨hplace, -⟩, -⟩ := hruns
    rw [hs] at hplace
    have hstart : node.location = l := by
      rw [location?, hget] at hl
      exact Option.some.inj hl
    obtain ⟨l', hl', hx⟩ := ih hplace
    refine ⟨l', hl', ?_⟩
    rw [hx, ← hfront.spelled_eq, hbefore, hstart, Position.advance_append]

namespace Layout

/-- The text in front of an attribute: the pieces before its tag, and the tag up to it. -/
def textBefore (before : List Piece) (name : List Char) (front : List TagPart) : List Char :=
  before.flatMap Piece.source ++ ('<' :: name ++ front.flatMap TagPart.text)

theorem sound_tagFront (before : List Piece) (name : List Char) (front : List TagPart) :
    ∃ run, (tagFront name front (pieces true before .empty).2).2.Sound true 0 run ∧
      Stretch.spelled run = textBefore before name front := by
  obtain ⟨run, hsound, -, htext⟩ := steady_pieces before (Draft.steady_empty true 0)
  obtain ⟨⟨more, hmore, -, hspelled⟩, -, -⟩ :=
    (((Spread.refl hsound).next (lays_token ['<'])).next (lays_token name)).next
      (lays_tagParts front)
  refine ⟨run ++ more, hmore, ?_⟩
  rw [Stretch.spelled_append, htext rfl, hspelled rfl]
  simp [textBefore]

theorem adds_tagRest (t : OpenTag) (back : List TagPart) (after : List Piece)
    (front : Position × Token × Token × List NodeId) (id : NodeId) :
    Adds (fun _ => True) (tagRest t back after front id) :=
  adds_bind (adds_tagParts true back) fun _ => adds_bind (adds_token _) fun _ =>
    adds_bind (adds_node _ trivial) fun _ =>
    adds_bind (adds_beginElement (fun _ _ => trivial) _ _ _) fun _ =>
      adds_bind (adds_pieces true after) fun _ =>
      adds_ending fun _ _ => trivial

theorem slot_attr (a : Attribute) (s : Draft) : ∃ name equals value,
    (attr a s).2.slots[(attr a s).1]? =
      some ⟨⟨⟨s.here, (attr a s).2.here⟩, .attr name equals value⟩, none, true⟩ ∧
      name.chars = a.name ∧ value.isSome = a.value.isSome := by
  obtain ⟨name, v⟩ := a
  have hchars : (token name s).1.chars = name := String.toList_ofList
  cases v with
  | none => exact ⟨_, none, none, (Draft.slots_push _ _ _ _).trans (if_pos rfl), hchars, rfl⟩
  | some v =>
    exact ⟨_, some (token ['='] (token name s).2).1,
      some (value v (token ['='] (token name s).2).2).1,
      (Draft.slots_push _ _ _ _).trans (if_pos rfl), hchars, rfl⟩

end Layout

theorem Document.within_ofPieces {t : OpenTag} {front back : List TagPart} {a : Attribute}
    (hparts : t.parts = front ++ .attr a :: back) (before after : List Piece) :
    ((Layout.attr a
      (Layout.tagFront t.name front (Layout.pieces true before .empty).2).2).2.view 0).Within
      (Document.ofPieces true (before ++ .openTag t :: after)) := by
  let f := Layout.tagFront t.name front (Layout.pieces true before .empty).2
  rw [ofPieces_split hparts]
  have hrest :=
    (Layout.adds_tagRest t back after f.1 (Layout.attr a f.2).1).within (Layout.attr a f.2).2
  exact ⟨hrest.size, hrest.kept⟩

theorem Document.get?_origin {t : OpenTag} {front back : List TagPart} {a : Attribute}
    (hparts : t.parts = front ++ .attr a :: back) (before after : List Piece) {x : NodeId}
    (hx : x =
      (Layout.attr a (Layout.tagFront t.name front (Layout.pieces true before .empty).2).2).1) :
    ∃ name equals value, (Document.ofPieces true (before ++ .openTag t :: after)).get? x =
      some ⟨⟨Position.start.advance (Layout.textBefore before t.name front),
        Position.start.advance (Layout.textBefore before t.name front ++ a.text)⟩,
        .attr name equals value⟩ ∧
      name.chars = a.name ∧ value.isSome = a.value.isSome := by
  let f := Layout.tagFront t.name front (Layout.pieces true before .empty).2
  obtain ⟨run, hsound, htext⟩ := Layout.sound_tagFront before t.name front
  have hstart : f.2.here = Position.start.advance (Layout.textBefore before t.name front) :=
    htext ▸ (hsound.exact rfl).2.2
  have hstop : (Layout.attr a f.2).2.here =
      Position.start.advance (Layout.textBefore before t.name front ++ a.text) := by
    obtain ⟨⟨more, hmore, -, hspelled⟩, -, -⟩ := Layout.lays_attr a f.2 run hsound
    rw [(hmore.exact rfl).2.2, Stretch.spelled_append, htext, hspelled rfl]
  obtain ⟨name, equals, value, hslot, hname, hvalue⟩ := Layout.slot_attr a f.2
  have hget := (within_ofPieces hparts before after).get?_eq hslot
  rw [← hstart, ← hstop, hx]
  exact ⟨name, equals, value, hget, hname, hvalue⟩

/-! ## Reading the tag again -/

namespace Markup

theorem Chained.revalued {closes : Bool} {front back : List TagPart}
    {name : List Char} {v v' : Option Value} (h : Chained closes (front ++ .attr ⟨name, v⟩ :: back))
    (hfits : (TagPart.attr ⟨name, v'⟩).Fits
      (back.flatMap TagPart.text ++ tagClosing closes).head?) :
    Chained closes (front ++ .attr ⟨name, v'⟩ :: back) ∧
      ((front ++ .attr ⟨name, v'⟩ :: back).flatMap TagPart.text ++ tagClosing closes).head? =
        ((front ++ .attr ⟨name, v⟩ :: back).flatMap TagPart.text ++ tagClosing closes).head? := by
  induction front with
  | nil =>
    obtain ⟨hpart, hback⟩ := h
    have hname : name ≠ [] := hpart.1.1.1
    refine ⟨⟨hfits, hback⟩, ?_⟩
    rw [List.nil_append, List.nil_append, head?_flatMap_cons hfits, head?_flatMap_cons hpart]
    exact (Attribute.head?_text (a := ⟨name, v'⟩) hname).trans
      (Attribute.head?_text (a := ⟨name, v⟩) hname).symm
  | cons part rest ih =>
    obtain ⟨hpart, hrest⟩ := h
    obtain ⟨hchained, hhead⟩ := ih hrest
    have hpart' : part.Fits ((rest ++ .attr ⟨name, v'⟩ :: back).flatMap TagPart.text ++
        tagClosing closes).head? :=
      hhead ▸ hpart
    refine ⟨⟨hpart', hchained⟩, ?_⟩
    rw [List.cons_append, List.cons_append, head?_flatMap_cons hpart', head?_flatMap_cons hpart]

theorem OpenTag.Fits.revalued {t : OpenTag} (h : t.Fits) {front back : List TagPart}
    {name : List Char} {v v' : Option Value} (hparts : t.parts = front ++ .attr ⟨name, v⟩ :: back)
    (hfits : (TagPart.attr ⟨name, v'⟩).Fits (back.flatMap TagPart.text ++ t.closing).head?) :
    OpenTag.Fits { t with parts := front ++ .attr ⟨name, v'⟩ :: back } := by
  have hchained := h.chained
  have hstops := h.stops
  rw [hparts] at hchained hstops
  obtain ⟨hnew, hhead⟩ := hchained.revalued hfits
  exact ⟨h.name, fun c hc => hstops c (hhead.symm.trans hc), hnew⟩

theorem Piece.Stands.congr {open_ : Nesting} {p : Piece} {rest rest' : List Piece}
    (h : p.Stands open_ rest) (hrest : ∀ u later, rest' = .text u :: later → ∃ later,
      rest = .text u :: later) : p.Stands open_ rest' := by
  cases p with
  | text content =>
    refine ⟨h.1, fun u later htext => ?_⟩
    obtain ⟨later', htext'⟩ := hrest u later htext
    exact h.2 u later' htext'
  | _ => exact h

/-- A readable list stays readable when one attribute has another value or none, if that fits before
what is behind it. -/
theorem Readable.revalued {open_ : Nesting} {before after : List Piece} {t : OpenTag}
    (h : Readable open_ (before ++ .openTag t :: after)) {front back : List TagPart}
    {name : List Char} {v v' : Option Value} (hparts : t.parts = front ++ .attr ⟨name, v⟩ :: back)
    (hfits : (TagPart.attr ⟨name, v'⟩).Fits (back.flatMap TagPart.text ++ t.closing).head?) :
    Readable open_
      (before ++ .openTag { t with parts := front ++ .attr ⟨name, v'⟩ :: back } :: after) := by
  induction before generalizing open_ with
  | nil =>
    obtain ⟨⟨htag, hstops⟩, hafter⟩ := h
    have htag : t.Fits := htag
    refine ⟨⟨htag.revalued hparts hfits, ?_⟩, hafter⟩
    obtain ⟨c, rest, hname, hc⟩ := htag.name.1
    have hraw : open_.rawText? = none := by
      simp only [Piece.source, OpenTag.text, hname, List.cons_append] at hstops
      exact (stops_openTag hc).mp hstops
    simp only [Piece.source, OpenTag.text, hname, List.cons_append]
    exact (stops_openTag hc).mpr hraw
  | cons p rest ih =>
    obtain ⟨hp, hrest⟩ := h
    refine ⟨hp.congr fun u later htext => ?_, ih hrest⟩
    cases rest with
    | nil => cases htext
    | cons q rest =>
      obtain rfl : q = .text u := (List.cons.inj htext).1
      exact ⟨_, rfl⟩

theorem Readable.fits_part {open_ : Nesting} {before after : List Piece} {t : OpenTag}
    (h : Readable open_ (before ++ .openTag t :: after)) {front back : List TagPart} {a : Attribute}
    (hparts : t.parts = front ++ .attr a :: back) :
    (TagPart.attr a).Fits (back.flatMap TagPart.text ++ t.closing).head? := by
  induction before generalizing open_ with
  | nil =>
    obtain ⟨⟨htag, -⟩, -⟩ := h
    have htag : t.Fits := htag
    have hchained := htag.chained
    rw [hparts] at hchained
    clear hparts
    induction front with
    | nil => exact hchained.1
    | cons part rest ih => exact ih hchained.2
  | cons p rest ih => exact ih h.2

end Markup

/-! ## The fix -/

namespace Rules.BooleanAttribute

theorem exists_run_fix {source : String} {d : Document}
    (h : Document.parse source true = .ok d) {t : NodeId} {location : Location} {name : Token}
    {equals : Option Token} {value : NodeId}
    (hget : d.get? t = some ⟨location, .attr name equals (some value)⟩) :
    ∃ e pre post, (fix t).run d = .ok true e ∧ source.toList = pre ++ d.text t ++ post ∧
      location = ⟨Position.start.advance pre, Position.start.advance (pre ++ d.text t)⟩ ∧
      e.print.toList = pre ++ name.chars ++ post := by
  have hf := forest_of_parse h
  obtain ⟨hexact, hroot, htext⟩ := exact_of_parse h
  obtain ⟨ps, hps, -⟩ := exists_pieces_of_parse h
  have hholds : d.Holds ps := hps ▸ holds_ofPieces ps
  have hlive := Document.isLive_of_get? hget
  have hne : t ≠ d.root := hholds.ne_root (Document.content?_of_get? hget) (by simp)
  obtain ⟨e, parent, hreplace, hstep⟩ :=
    (Tracks.refl hf).exists_step hlive hget List.not_mem_nil hne
  have hreplaced := hstep.replaced
  have hg := hstep.forest.grounded
  have hrun : (fix t).run d = .ok true e := by
    rw [fix, Edit.run_bind_ok (Edit.run_node hget)]
    simp only [Option.isNone_some, Bool.and_false, Bool.false_eq_true, if_false]
    exact Edit.run_bind_ok (Edit.run_replace hreplace) _
  have hnew : e.text d.slots.size = name.chars := by
    rw [hreplaced.text_new hf hg
      (by simp [Document.mended, Node.mapChildren, Content.mapChildren,
        Node.children, Content.children])]
    simp [Document.mended, Node.mapChildren, Content.mapChildren, Content.render]
  have habove : d.Below d.root parent :=
    hf.below_of_top_eq (Document.isLive_of_mem_children (hreplaced.old_mem hf))
  obtain ⟨pre, post, hfront, hbefore, hafter⟩ := hreplaced.text_front hf hg habove
  obtain ⟨l, hl, hstart⟩ := hexact.location_front hfront hroot
  obtain rfl : location = l := by
    rw [Document.location?, show (id t : NodeId) = t from rfl, hget] at hl
    exact Option.some.inj hl
  have hlocation : location =
      ⟨Position.start.advance pre, Position.start.advance (pre ++ d.text t)⟩ := by
    have hstop := hexact.stop_eq hf.grounded hget
    simp only at hstop
    rw [Position.advance_append, ← hstart, ← hstop]
  refine ⟨e, pre, post, hrun, ?_, hlocation, ?_⟩
  · rw [← htext]
    exact hbefore
  · rw [Document.print, String.toList_ofList, hreplaced.root, hafter, hnew]

end Rules.BooleanAttribute

/-! ## What may stand behind a bare name -/

/-- Behind an attribute's name the character would be read as part of it, or would start a value. -/
def continuesName (c : Char) : Bool := isAttributeNameChar c || c == '='

/-- The character at the position would be read together with a name in front of it. -/
def RunsOnAt (source : String) (p : Position) : Prop :=
  ∃ i < source.toList.length, Position.start.advance (source.toList.take i) = p ∧
    source.toList[i]?.any continuesName = true

instance (source : String) (p : Position) : Decidable (RunsOnAt source p) :=
  inferInstanceAs (Decidable (∃ i < _, _))

theorem runsOnAt_iff {source : String} {front back : List Char}
    (h : source.toList = front ++ back) :
    RunsOnAt source (Position.start.advance front) ↔ back.head?.any continuesName = true := by
  rw [RunsOnAt, h]
  constructor
  · rintro ⟨i, hi, hplace, hany⟩
    -- In this text the position is reached behind `front` only.
    have hfront : (front ++ back).take i = front :=
      eq_of_advance_eq (List.take_append_drop i (front ++ back)) hplace
    have hlength : i = front.length := by
      rw [← hfront, List.length_take, Nat.min_eq_left (Nat.le_of_lt hi)]
    rwa [hlength, List.getElem?_append_right (Nat.le_refl _), Nat.sub_self,
      ← List.head?_eq_getElem?] at hany
  · intro hany
    have hback : 0 < back.length := by
      rw [List.length_pos_iff]
      rintro rfl
      cases hany
    refine ⟨front.length, by rw [List.length_append]; omega, by rw [List.take_left], ?_⟩
    rwa [List.getElem?_append_right (Nat.le_refl _), Nat.sub_self, ← List.head?_eq_getElem?]

theorem fits_bare_iff {name : List Char}
    (hname : Rules.BooleanAttribute.isBoolean (String.ofList name) = true) (next : Option Char) :
    (TagPart.attr ⟨name, none⟩).Fits next ↔ ¬ next.any continuesName = true := by
  obtain ⟨hne, hall⟩ := isAttributeNameChar_of_isBoolean hname
  constructor
  · rintro ⟨⟨-, hstops, hequals⟩, -⟩ hany
    cases next with
    | none => cases hany
    | some c =>
      rw [Option.any_some, continuesName, hstops hall c rfl, Bool.false_or, beq_iff_eq] at hany
      exact hequals (congrArg some hany)
  · intro hany
    refine fits_name hne hall (fun c hc => ?_) fun hequals => hany (by rw [hequals]; decide)
    rw [hc, Option.any_some, continuesName, Bool.or_eq_true, not_or] at hany
    exact Bool.eq_false_iff.mpr hany.1

theorem exists_fix_split {source : String} {d : Document} {o : Offense}
    (h : Document.parse source true = .ok d) (ho : o ∈ Rules.BooleanAttribute.check d) :
    ∃ e before tag after front name v back, Readable [] (before ++ .openTag tag :: after) ∧
      d = .ofPieces true (before ++ .openTag tag :: after) ∧
      tag.parts = front ++ .attr ⟨name, some v⟩ :: back ∧
      Rules.BooleanAttribute.isBoolean (String.ofList name) = true ∧
      let t :=
        (Layout.attr ⟨name, some v⟩
          (Layout.tagFront tag.name front (Layout.pieces true before .empty).2).2).1
      let text := Layout.textBefore before tag.name front
      let rest := back.flatMap TagPart.text ++ tag.closing ++ after.flatMap Piece.source
      o.fix = some ⟨t, .safe⟩ ∧ (Rules.BooleanAttribute.fix t).run d = .ok true e ∧
      source.toList = text ++ Attribute.text ⟨name, some v⟩ ++ rest ∧
      o.location.stop = Position.start.advance (text ++ Attribute.text ⟨name, some v⟩) ∧
      e.print.toList = text ++ name ++ rest := by
  obtain ⟨t, name, equals, value, hget, hboolean, -, hfix⟩ :=
    Rules.BooleanAttribute.offers_of_mem_check ho
  obtain ⟨e, pre, post, hrun, hsource, hplace, hprint⟩ :=
    Rules.BooleanAttribute.exists_run_fix h hget
  obtain ⟨ps, hread, rfl⟩ := exists_readPieces_of_parse h
  obtain ⟨hreadable, htext⟩ := readPieces_eq_ok_iff.mp hread
  obtain ⟨slot, hslot, hnode⟩ := Document.slot_of_get? hget
  obtain ⟨before, tag, after, front, ⟨aname, v?⟩, back, rfl, hparts, rfl⟩ :=
    Document.exists_origin hslot (by rw [hnode]; trivial)
  obtain ⟨name', equals', value', horigin, hname, hsome⟩ :=
    Document.get?_origin hparts before after rfl
  obtain ⟨hlocation, rfl, -, rfl⟩ :
      o.location = ⟨Position.start.advance (Layout.textBefore before tag.name front),
        Position.start.advance
          (Layout.textBefore before tag.name front ++ Attribute.text ⟨aname, v?⟩)⟩ ∧
      name = name' ∧ equals = equals' ∧ some value = value' := by
    rw [hget] at horigin
    simpa using horigin
  obtain ⟨v, rfl⟩ : ∃ v, v? = some v := Option.isSome_iff_exists.mp hsome.symm
  have hname : name.text.toList = aname := hname
  have hafter : source.toList = Layout.textBefore before tag.name front ++
      Attribute.text ⟨aname, some v⟩ ++
      (back.flatMap TagPart.text ++ tag.closing ++ after.flatMap Piece.source) := by
    rw [← htext]
    simp [Layout.textBefore, Piece.source, OpenTag.text, hparts, TagPart.text]
  -- The text that the fix changes is where the attribute was laid out.
  rw [hlocation, Location.mk.injEq] at hplace
  have hpre : Layout.textBefore before tag.name front = pre := by
    rw [List.append_assoc] at hsource hafter
    exact eq_of_advance_eq (hafter.symm.trans hsource) hplace.1
  have hpost : back.flatMap TagPart.text ++ tag.closing ++ after.flatMap Piece.source = post := by
    have hboth := hafter.symm.trans hsource
    rwa [eq_of_advance_eq hboth hplace.2, List.append_cancel_left_eq] at hboth
  refine ⟨e, before, tag, after, front, aname, v, back, hreadable, rfl, hparts, ?_,
    hfix, hrun, hafter, ?_, ?_⟩
  · rwa [← hname, String.ofList_toList]
  · rw [hlocation]
  · rw [hprint, hpre, hpost, ← hname]
    rfl

/-- Without the value, the text reads back as the same tree exactly if nothing behind it runs on
into the name. -/
theorem parse_dropValue_iff {source : String} {d : Document} {o : Offense}
    (h : Document.parse source true = .ok d) (ho : o ∈ Rules.BooleanAttribute.check d) :
    ∃ t e, o.fix = some ⟨t, .safe⟩ ∧ (Rules.BooleanAttribute.fix t).run d = .ok true e ∧
      ((∃ d', Document.parse e.print true = .ok d' ∧ d'.unplaced = (d.dropValue t).unplaced) ↔
        ¬ RunsOnAt source o.location.stop) := by
  obtain ⟨e, before, tag, after, front, name, v, back, hreadable, rfl, hparts, hboolean, hfix, hrun,
      hsource, hstop, hprint⟩ :=
    exists_fix_split h ho
  refine ⟨_, e, hfix, hrun, ?_⟩
  have hbare := Document.ofPieces_bare hparts before after rfl
  have hruns : RunsOnAt source o.location.stop ↔
      (back.flatMap TagPart.text ++ tag.closing).head?.any continuesName = true := by
    rw [hstop, runsOnAt_iff hsource, List.head?_append_of_ne_nil]
    exact List.append_ne_nil_of_right_ne_nil _ (tagClosing_ne_nil tag.selfClosing)
  rw [hruns, ← fits_bare_iff hboolean]
  constructor
  · rintro ⟨d', hparse, hsame⟩
    obtain ⟨qs, hread, rfl⟩ := exists_readPieces_of_parse hparse
    have hqs := (holds_ofPieces _).unique (holds_ofPieces qs) (hsame.trans hbare.symm)
    rw [hqs] at hread
    exact (readPieces_eq_ok_iff.mp hread).1.fits_part rfl
  · intro hfits
    have hread : readPieces [] e.print.toList =
        .ok (before ++
          .openTag { tag with parts := front ++ .attr ⟨name, none⟩ :: back } :: after) := by
      refine readPieces_eq_ok_iff.mpr ⟨hreadable.revalued hparts hfits, ?_⟩
      rw [hprint]
      simp [Layout.textBefore, Piece.source, OpenTag.text, TagPart.text,
        Attribute.text, OpenTag.closing]
    exact ⟨_, Document.parse_of_readPieces hread true, hbare⟩

/-- Right behind the value comes embedded Ruby, and then another attribute. -/
theorem parse_dropValue_before_erb : ∃ d o t e d',
    Document.parse "<p><input CHECKED='a'<%= x %>value=1></p>" true = .ok d ∧
      o ∈ Rules.BooleanAttribute.check d ∧
      o.fix = some ⟨t, .safe⟩ ∧ (Rules.BooleanAttribute.fix t).run d = .ok true e ∧
      Document.parse e.print true = .ok d' ∧ d'.unplaced = (d.dropValue t).unplaced := by
  have hok :
      (Document.parse "<p><input CHECKED='a'<%= x %>value=1></p>" true).toOption.any (fun d =>
      (Rules.BooleanAttribute.check d).any fun o =>
        !decide (RunsOnAt "<p><input CHECKED='a'<%= x %>value=1></p>" o.location.stop)) = true := by
    decide +kernel
  obtain ⟨d, hd, hany⟩ := exists_ok_of_any hok
  obtain ⟨o, ho, hruns⟩ := List.any_eq_true.mp hany
  obtain ⟨t, e, hfix, hrun, hiff⟩ := parse_dropValue_iff hd ho
  obtain ⟨d', hparse, hsame⟩ := hiff.mpr (by simpa using hruns)
  exact ⟨d, o, t, e, d', hd, ho, hfix, hrun, hparse, hsame⟩

/-- Without its value the first attribute runs into the second one, and both become one. -/
theorem dropValue_joins_attributes : ∃ d e d',
    Document.parse "<input checked=\"x\"value=\"1\">" true = .ok d ∧
      (∃ o ∈ Rules.BooleanAttribute.check d, o.fix = some ⟨3, .safe⟩) ∧
      (Rules.BooleanAttribute.fix 3).run d = .ok true e ∧ e.print = "<input checkedvalue=\"1\">" ∧
      Document.parse e.print true = .ok d' ∧ d'.unplaced ≠ (d.dropValue 3).unplaced := by
  have hok : (Document.parse "<input checked=\"x\"value=\"1\">" true).toOption.any (fun d =>
      (Rules.BooleanAttribute.check d).any (fun o => decide (o.fix = some ⟨3, .safe⟩)) &&
        (Edit.changed? (Rules.BooleanAttribute.fix 3) d).any fun e =>
          decide (e.print = "<input checkedvalue=\"1\">") &&
            (Document.parse e.print true).toOption.any fun d' =>
              decide (d'.unplaced ≠ (d.dropValue 3).unplaced)) =
      true := by
    decide +kernel
  obtain ⟨d, hd, hfacts⟩ := exists_ok_of_any hok
  rw [Bool.and_eq_true, List.any_eq_true, Option.any_eq_true] at hfacts
  obtain ⟨⟨o, ho, hfix⟩, e, hchanged, hfixed⟩ := hfacts
  rw [Bool.and_eq_true, decide_eq_true_eq] at hfixed
  obtain ⟨d', hparse, hdiffers⟩ := exists_ok_of_any hfixed.2
  exact ⟨d, e, d', hd, ⟨o, ho, of_decide_eq_true hfix⟩,
    Edit.changed?_eq_some_iff.mp hchanged, hfixed.1, hparse, of_decide_eq_true hdiffers⟩

end TemplateLint
