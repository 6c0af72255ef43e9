import Mathlib.Data.Finset.Card
import TemplateLint.Proofs.DocumentOrder
import TemplateLint.Proofs.DroppedBlanks
import TemplateLint.Proofs.Lockstep
import TemplateLint.Proofs.WellFormed

/-!
# Repeated ids

Attributes give ids, and one that gives the id of an earlier one is reported with the line of the
first. The rule notes where the value of the first one starts; nothing stands between the name and
the value but the equals sign, so this is the line of the attribute too. Main statements: the notes
know the first of every id (`compare_note`), and which attributes are reported (`uniqueId_finds`).
-/

namespace TemplateLint

open Markup Rules.UniqueId

namespace Document

variable {d : Document} {x : NodeId} {name : Token} {equals : Option Token}
  {ps : List Piece} {keep : Bool}

/-! ## Attributes -/

theorem Standing.holdsAttribute {children : List NodeId} (h : d.Standing keep ps x)
    (hroot : d.content? d.root = some (.document children)) {value : Option NodeId}
    (hx : d.content? x = some (.attr name equals value)) : ∃ a, d.HoldsAttribute x a := by
  have hpiece {p : Piece} (hp : d.HoldsPiece x p) : ∃ a, d.HoldsAttribute x a := by
    cases p <;> simp [HoldsPiece, HoldsErb, HoldsOpenTag, HoldsCloseTag, hx] at hp
  cases h with
  | root h =>
    rw [h, hroot] at hx
    cases hx
  | inBody hresident =>
    cases hresident with
    | text hx' =>
      rw [hx] at hx'
      cases hx'
    | piece _ hp => exact hpiece hp
    | element hx' =>
      rw [hx] at hx'
      cases hx'
  | openTag _ hp => exact hpiece hp
  | closeTag _ hp => exact hpiece hp
  | @tagPart part _ _ hp =>
    cases part with
    | attr a => exact ⟨a, hp⟩
    | _ => simp [HoldsTagPart, HoldsErb, hx] at hp
  | value _ hv => simp [HoldsValue, hx] at hv
  | @valuePart part _ _ hp => cases part <;> simp [HoldsPart, HoldsErb, hx] at hp

end Document

theorem holdsAttribute_of_parse {source : String} {keep : Bool} {d : Document}
    (h : Document.parse source keep = .ok d) {x : NodeId} {name : Token} {equals : Option Token}
    {value : Option NodeId} (hx : d.content? x = some (.attr name equals value)) :
    ∃ a, d.HoldsAttribute x a := by
  obtain ⟨ps, hread, hd⟩ := exists_readPieces_of_parse h
  have hreadable := readable_of_readPieces hread
  have hapart (front : List Piece) (t : List Char) (back : List Piece)
      (hps : ps = front ++ .text t :: back) :
      ∀ u, front.getLast? ≠ some (.text u) := by
    rw [hps] at hreadable
    exact hreadable.text_apart
  obtain ⟨children, b, hroot, hbody⟩ := body_ofPieces keep hapart
  rw [← hd] at hroot hbody
  obtain ⟨n, hget, -⟩ := Document.get?_of_content? hx
  have hstanding := Document.standing_of_isLive (forest_of_parse h) hreadable hroot hbody
    (Document.isLive_of_get? hget)
  exact hstanding.holdsAttribute hroot hx

namespace Document

variable {d : Document} {x y value : NodeId} {name : Token} {equals : Option Token}

theorem HoldsAttribute.not_attr_below {a : Attribute} (h : d.HoldsAttribute y a) (hb : d.Below y x)
    (hne : y ≠ x) {value : Option NodeId} : d.content? x ≠ some (.attr name equals value) := by
  -- The first step down leads to the value, the second one to a part of it, and there is no third.
  intro hx
  obtain ⟨_, _, held, hy, -, -, hvalue⟩ := h
  obtain rfl | ⟨v, hv, hvx⟩ := Relation.ReflTransGen.cases_head hb
  · exact hne rfl
  obtain rfl : held = some v := by simpa [children_of_content? hy, Content.children] using hv
  generalize a.value = given at hvalue
  cases hvalue with
  | some hgiven =>
    obtain ⟨_, _, _, hcontent, -, -, hparts⟩ := hgiven
    obtain rfl | ⟨z, hz, hzx⟩ := Relation.ReflTransGen.cases_head hvx
    · rw [hx] at hcontent
      cases hcontent
    rw [children_of_content? hcontent] at hz
    obtain ⟨part, -, hpart⟩ := exists_of_mem_forall₂ hparts hz
    obtain rfl | ⟨w, hw, -⟩ := Relation.ReflTransGen.cases_head hzx
    · cases part <;> simp [HoldsPart, HoldsErb, hx] at hpart
    · simp [hpart.children_eq] at hw

/-! ## Lines -/

theorem Exact.value_start (he : d.Exact) {equals : Token}
    (hx : d.content? x = some (.attr name (some equals) (some value))) :
    ∃ l l', d.location? x = some l ∧ d.location? value = some l' ∧
      l'.start = l.start.advance (name.chars ++ equals.chars) := by
  obtain ⟨⟨l, content⟩, hget, rfl⟩ := get?_of_content? hx
  obtain ⟨run, hitems, hruns, -⟩ := he x _ hget
  obtain ⟨first, run, rfl, hfirst, hitems⟩ := List.map_eq_cons_iff.mp hitems
  obtain ⟨second, run, rfl, hsecond, hitems⟩ := List.map_eq_cons_iff.mp hitems
  obtain ⟨third, run, rfl, hthird, -⟩ := List.map_eq_cons_iff.mp hitems
  obtain ⟨⟨-, hname⟩, ⟨-, hequals⟩, ⟨hplace, -⟩, -⟩ := hruns
  rw [hfirst] at hname
  rw [hsecond] at hequals
  rw [hthird] at hplace
  refine ⟨l, _, by rw [location?, hget]; rfl, hplace, ?_⟩
  rw [Position.advance_append, ← hname, ← hequals]
  rfl

theorem Tidy.exists_shifted (h : d.Tidy) {n : Node} (hx : d.dropBlanks.get? x = some n) :
    ∃ y m, d.get? y = some m ∧ m.content.isBlank = false ∧ d.shiftedId y = x ∧
      d.shiftedNode m = n := by
  obtain ⟨slot, hslot, hlive⟩ := exists_slot_of_isLive (isLive_of_get? hx)
  have hlt : x < d.keptBefore (fun _ c => c.isBlank) d.slots.size := by
    rw [← size_prune]
    exact (Array.getElem?_eq_some_iff.mp hslot).1
  obtain ⟨y, -, hkept, rfl⟩ := exists_keptBefore_eq hlt
  obtain ⟨old, hold, hblank⟩ := isKept_iff.mp hkept
  have hslot' := slots_prune hkept
  rw [hold, Option.map_some] at hslot'
  obtain rfl := Option.some.inj (hslot.symm.trans hslot')
  have hget : d.get? y = some old.node := (get?_of_slot hold).trans (if_pos hlive)
  exact ⟨y, old.node, hget, hblank, rfl,
    Option.some.inj ((h.get?_shifted hget hblank).symm.trans hx)⟩

theorem Tidy.value_start (h : d.Tidy) (he : d.Exact) {equals : Token}
    (hx : d.dropBlanks.content? x = some (.attr name (some equals) (some value))) :
    ∃ l l', d.dropBlanks.location? x = some l ∧ d.dropBlanks.location? value = some l' ∧
      l'.start = l.start.advance (name.chars ++ equals.chars) := by
  obtain ⟨n, hget, hcontent⟩ := get?_of_content? hx
  obtain ⟨y, ⟨l, content⟩, hy, hblank, rfl, rfl⟩ := h.exists_shifted hget
  obtain ⟨held, rfl, rfl⟩ : ∃ held, content = .attr name (some equals) (some held) ∧
      d.shiftedId held = value := by
    cases content with
    | attr name' equals' held =>
      obtain ⟨rfl, rfl, hheld⟩ : name' = name ∧ equals' = some equals ∧
          held.map d.shiftedId = some value := by
        simpa [shiftedNode, shiftedContent, Content.mapChildren] using hcontent
      obtain ⟨held, rfl, hshift⟩ := Option.map_eq_some_iff.mp hheld
      exact ⟨held, rfl, hshift⟩
    | _ => simp [shiftedNode, shiftedContent, Content.mapChildren] at hcontent
  have hattr := content?_of_get? hy
  rw [h.location?_shifted ⟨_, hy, hblank⟩, h.location?_shifted (h.children_value hattr).2.1]
  exact he.value_start hattr

end Document

section Parsed

variable {source : String} {keep : Bool} {d : Document} (h : Document.parse source keep = .ok d)
include h

theorem value_start_of_parse {x value : NodeId} {name equals : Token}
    (hx : d.content? x = some (.attr name (some equals) (some value))) :
    ∃ l l', d.location? x = some l ∧ d.location? value = some l' ∧
      l'.start = l.start.advance (name.chars ++ equals.chars) := by
  obtain ⟨ps, rfl, -⟩ := exists_pieces_of_parse h
  have hexact := ((sound_ofPieces true ps).2 rfl).1
  cases keep with
  | true => exact hexact.value_start hx
  | false =>
    rw [Document.ofPieces_false] at hx ⊢
    exact (Document.tidy_ofPieces ps).value_start hexact hx

omit h in
theorem count_newline_of_sameLetters {name : Token}
    (hname : Text.sameLetters name.text "id" = true) :
    name.chars.count '\n' = 0 := by
  rw [List.count_eq_zero]
  intro hmem
  have hlower : Char.toLower '\n' ∈ Text.asciiLower name.text.toList := List.mem_map_of_mem hmem
  rw [beq_iff_eq.mp hname] at hlower
  exact absurd hlower (by decide)

theorem exists_line_of_parse {x value : NodeId} {name : Token}
    {equals : Option Token} {place : Location}
    (hx : d.content? x = some (.attr name equals (some value)))
    (hname : Text.sameLetters name.text "id" = true) (hplace : d.location? value = some place) :
    ∃ l, d.location? x = some l ∧ place.start.line = l.start.line := by
  obtain ⟨a, _, _, _, hx', -, hequals, hvalue⟩ := holdsAttribute_of_parse h hx
  rw [hx] at hx'
  cases hx'
  generalize a.value = given at hequals hvalue
  cases hvalue with
  | some _ =>
    obtain ⟨sign, rfl, hsign⟩ := Option.map_eq_some_iff.mp hequals
    obtain ⟨l, l', hl, hl', hstart⟩ := value_start_of_parse h hx
    obtain rfl := Option.some.inj (hplace.symm.trans hl')
    refine ⟨l, hl, ?_⟩
    rw [hstart, Position.line_advance, List.count_append, count_newline_of_sameLetters hname, hsign]
    rfl

end Parsed

/-! ## Ids -/

/-- An attribute that gives an id, with the place of its value and the line on which the attribute
starts. -/
structure StaticId where
  node : NodeId
  text : String
  place : Location
  line : Nat

namespace StaticId

variable {ids : List StaticId}

def note (s : StaticId) : Note := ⟨s.text, s.place⟩

def repeated (ids : List StaticId) : List StaticId :=
  (ids.zipIdx.filter fun x => decide (x.1.text ∈ (ids.take x.2).map text)).map Prod.fst

/-- What is reported of an id at a place in the list. -/
def offense? (ids : List StaticId) (x : StaticId × Nat) : Option Offense :=
  ((ids.take x.2).find? (·.text == x.1.text)).map fun first =>
    descriptor.offense (message x.1.text first.place.start.line) x.1.place

/-- The notes know the first one with every text, of all that came before. -/
theorem compare_note {notes : List Note} {before : List StaticId}
    (h : ∀ t, notes.find? (·.text == t) = (before.find? (·.text == t)).map note)
    (ids : List StaticId) :
    (compare notes (ids.map note)).1 =
      (ids.zipIdx before.length).filterMap (offense? (before ++ ids)) := by
  induction ids generalizing notes before with
  | nil => rfl
  | cons s rest ih =>
    have hsplit : before ++ s :: rest = (before ++ [s]) ++ rest := by simp
    have hlength : before.length + 1 = (before ++ [s]).length := by simp
    have hself : offense? (before ++ s :: rest) (s, before.length) =
        (before.find? (·.text == s.text)).map fun first =>
        descriptor.offense (message s.text first.place.start.line) s.place := by
      rw [offense?, List.take_left]
    have hnote : notes.find? (·.text == s.note.text) =
        (before.find? (·.text == s.text)).map note := h s.text
    rw [List.map_cons, Rules.UniqueId.compare, List.zipIdx_cons, List.filterMap_cons, hself, hnote]
    cases hfirst : before.find? (·.text == s.text) with
    | none =>
      have hnotes (t : String) :
          (notes ++ [s.note]).find? (·.text == t) =
            ((before ++ [s]).find? (·.text == t)).map note := by
        rw [List.find?_append, List.find?_append, h]
        cases before.find? (·.text == t) <;> simp [List.find?_singleton, note, apply_ite]
      rw [hsplit, hlength]
      exact ih hnotes
    | some first =>
      -- The one that was first with this text still is.
      have hnotes (t : String) : notes.find? (·.text == t) =
          ((before ++ [s]).find? (·.text == t)).map note := by
        rw [List.find?_append, h]
        cases ht : before.find? (·.text == t) with
        | some other => rfl
        | none =>
          have hne : s.text ≠ t := by
            rintro rfl
            rw [hfirst] at ht
            cases ht
          simp [hne]
      rw [hsplit, hlength]
      exact congrArg (_ :: ·) (ih hnotes)

theorem offense?_of_mem {x : StaticId × Nat} (h : x.1.text ∈ (ids.take x.2).map text) :
    ∃ first, ids.find? (·.text == x.1.text) = some first ∧
      offense? ids x =
        some (descriptor.offense (message x.1.text first.place.start.line) x.1.place) := by
  obtain ⟨s, hs, hsame⟩ := List.mem_map.mp h
  have hsome : ((ids.take x.2).find? (·.text == x.1.text)).isSome = true :=
    List.find?_isSome.mpr ⟨s, hs, beq_iff_eq.mpr hsame⟩
  obtain ⟨first, hfirst⟩ := Option.isSome_iff_exists.mp hsome
  exact ⟨first,
    (List.take_prefix x.2 ids).find?_eq_some hfirst, by rw [offense?, hfirst, Option.map_some]⟩

theorem offense?_of_not_mem {x : StaticId × Nat} (h : x.1.text ∉ (ids.take x.2).map text) :
    offense? ids x = none := by
  rw [offense?, Option.map_eq_none_iff, List.find?_eq_none]
  intro s hs hsame
  exact h (List.mem_map.mpr ⟨s, hs, beq_iff_eq.mp hsame⟩)

theorem length_repeated_add_card (before ids : List StaticId) :
    ((ids.zipIdx before.length).filter fun x =>
      decide (x.1.text ∈ ((before ++ ids).take x.2).map text)).length +
      ((before ++ ids).map text).toFinset.card = ids.length + (before.map text).toFinset.card := by
  -- The others are the first ones with their texts, so there are as many of them as there are
  -- texts.
  induction ids generalizing before with
  | nil => simp
  | cons s rest ih =>
    have hsplit : before ++ s :: rest = (before ++ [s]) ++ rest := by simp
    have hlength : before.length + 1 = (before ++ [s]).length := by simp
    have hrest := ih (before ++ [s])
    have hinsert : ((before ++ [s]).map text).toFinset =
        insert s.text (before.map text).toFinset := by
      simp
    rw [← hsplit, ← hlength, hinsert] at hrest
    rw [List.zipIdx_cons, List.filter_cons, List.take_left, List.length_cons]
    by_cases hmem : s.text ∈ before.map text
    · rw [Finset.insert_eq_of_mem (List.mem_toFinset.mpr hmem)] at hrest
      rw [if_pos (decide_eq_true hmem), List.length_cons]
      omega
    · rw [Finset.card_insert_of_notMem (by rwa [List.mem_toFinset])] at hrest
      rw [if_neg (by simpa using hmem)]
      omega

end StaticId

namespace Document

variable {d : Document} {v : Visit} {s : StaticId} {note : Note}

/-- An attribute named `id`, up to case, whose value consists of literals and is not blank. -/
def IsIdAttribute (d : Document) (c : Content) (text : String) (place : Location) : Prop :=
  ∃ name equals value literals, c = .attr name equals (some value) ∧
    Text.sameLetters name.text "id" = true ∧
    List.Forall₂ (fun y t => d.content? y = some (.literal t)) (d.children value) literals ∧
    text.toList = Text.trim (literals.flatMap Token.chars) ∧ text ≠ "" ∧
    d.location? value = some place

def Gives (d : Document) (s : StaticId) : Prop :=
  ∃ n, d.get? s.node = some n ∧ d.IsIdAttribute n.content s.text s.place ∧
    s.line = n.location.start.line

theorem literalText?_eq_some_iff {ids : List NodeId} {chars : List Char} :
    literalText? d ids = some chars ↔
    ∃ literals, List.Forall₂ (fun y t => d.content? y = some (.literal t)) ids literals ∧
      chars = literals.flatMap Token.chars := by
  induction ids generalizing chars with
  | nil => simp [literalText?, eq_comm]
  | cons y rest ih =>
    rw [literalText?]
    split
    · rename_i location content hget
      have hy := content?_of_get? hget
      simp only [Option.map_eq_some_iff, ih]
      constructor
      · rintro ⟨_, ⟨literals, hrest, rfl⟩, rfl⟩
        exact ⟨content :: literals, .cons hy hrest, rfl⟩
      · rintro ⟨_, hall, rfl⟩
        obtain ⟨t, literals, ht, hrest, rfl⟩ := List.forall₂_cons_left_iff.mp hall
        obtain rfl : content = t := by simpa [hy] using ht
        exact ⟨_, ⟨literals, hrest, rfl⟩, rfl⟩
    · rename_i hother
      constructor
      · rintro ⟨⟩
      · rintro ⟨_, hall, -⟩
        obtain ⟨t, _, ht, -, -⟩ := List.forall₂_cons_left_iff.mp hall
        obtain ⟨⟨location, _⟩, hget, rfl⟩ := get?_of_content? ht
        exact absurd hget (hother location t)

theorem idNote?_eq_some_iff {c : Content} :
    idNote? d c = some note ↔ d.IsIdAttribute c note.text note.location := by
  constructor
  · intro h
    unfold idNote? at h
    split at h
    · rename_i name equals value
      split at h
      · rename_i hname
        split at h
        · rename_i chars location hchars hlocation
          obtain ⟨literals, hliterals, rfl⟩ := literalText?_eq_some_iff.mp hchars
          simp only [Option.ite_none_left_eq_some, Option.some.injEq] at h
          obtain ⟨hne, rfl⟩ := h
          refine ⟨name, equals, value, literals, rfl, hname, hliterals,
            String.toList_ofList, ?_, hlocation⟩
          simpa using hne
        · cases h
      · cases h
    · cases h
  · rintro ⟨name, equals, value, literals, rfl, hname, hliterals, htext, hne, hlocation⟩
    have hchars := literalText?_eq_some_iff.mpr ⟨literals, hliterals, rfl⟩
    obtain ⟨text, location⟩ := note
    obtain rfl : text = String.ofList (Text.trim (literals.flatMap Token.chars)) := by
      rw [← htext, String.ofList_toList]
    simp only [idNote?, hname, if_true, hchars, hlocation]
    exact if_neg (by simpa using hne)

/-- The id that the attribute of a visit gives. -/
def staticId? (d : Document) (v : Visit) : Option StaticId :=
  (idNote? d v.node.content).map fun note =>
    ⟨v.id, note.text, note.location, v.node.location.start.line⟩

theorem staticId?_eq_some_iff (hv : d.IsVisit v) :
    d.staticId? v = some s ↔ d.Gives s ∧ s.node = v.id := by
  simp only [staticId?, Option.map_eq_some_iff, idNote?_eq_some_iff]
  constructor
  · rintro ⟨note, hnote, rfl⟩
    exact ⟨⟨v.node, hv.node, hnote, rfl⟩, rfl⟩
  · rintro ⟨⟨n, hget, hid, hline⟩, hnode⟩
    obtain ⟨node, text, place, line⟩ := s
    obtain rfl : node = v.id := hnode
    obtain rfl := Option.some.inj (hv.node.symm.trans hget)
    obtain rfl : line = v.node.location.start.line := hline
    exact ⟨⟨text, place⟩, hid, rfl⟩

theorem node_of_staticId? (h : d.staticId? v = some s) : s.node = v.id := by
  obtain ⟨note, -, rfl⟩ := Option.map_eq_some_iff.mp h
  rfl

/-- The attributes that give ids, in the order in which they are visited. -/
def staticIds (d : Document) : List StaticId :=
  (d.visits fun v => isAttr v.node.content).filterMap d.staticId?

theorem findsIn_check (d : Document) (c : Context) : Rules.uniqueId.FindsIn d c (check d []).1 :=
  fun _ => ⟨(check d []).2, rfl⟩

theorem check_eq_filterMap (d : Document) :
    (check d []).1 = d.staticIds.zipIdx.filterMap (StaticId.offense? d.staticIds) := by
  have hnotes :
      ((d.visits fun v => isAttr v.node.content).filterMap fun v => idNote? d v.node.content) =
      d.staticIds.map StaticId.note := by
    rw [staticIds, List.map_filterMap]
    refine List.filterMap_congr fun v _ => ?_
    rw [staticId?, Option.map_map]
    exact Option.map_id'.symm
  rw [check, hnotes]
  exact @StaticId.compare_note [] [] (fun _ => rfl) d.staticIds

end Document

section Parsed

variable {source : String} {keep : Bool} {d : Document} (h : Document.parse source keep = .ok d)
include h

theorem isAttr_eq_false_of_isAbove {x : NodeId} {w : Visit} {name : Token} {equals : Option Token}
    {value : Option NodeId} (hx : d.content? x = some (.attr name equals value)) (hw : d.IsVisit w)
    (habove : d.IsAbove w.id x) :
    isAttr w.node.content = false := by
  obtain ⟨hbelow, hne⟩ := (forest_of_parse h).isAbove_iff.mp habove
  cases hcontent : w.node.content with
  | attr name' equals' value' =>
    obtain ⟨a, ha⟩ := holdsAttribute_of_parse h (hcontent ▸ Document.content?_of_get? hw.node)
    exact absurd hx (ha.not_attr_below hbelow hne)
  | _ => rfl

theorem mem_staticIds_iff {s : StaticId} : s ∈ d.staticIds ↔ d.Gives s := by
  have hf := forest_of_parse h
  rw [Document.staticIds, List.mem_filterMap]
  constructor
  · rintro ⟨v, hv, hs⟩
    exact ((Document.staticId?_eq_some_iff (hf.mem_visits_iff.mp hv).1).mp hs).1
  · intro hs
    obtain ⟨n, hget, hid, -⟩ := id hs
    obtain ⟨name, equals, value, -, hattr, -⟩ := hid
    have hcontent := Document.content?_of_get? hget
    rw [hattr] at hcontent
    obtain ⟨v, hvisit, hnode⟩ := hf.exists_visit hcontent
    refine ⟨v, hf.mem_visits_iff_above.mpr ⟨hvisit, fun w hw habove => ?_⟩,
      (Document.staticId?_eq_some_iff hvisit).mpr ⟨hs, hnode.symm⟩⟩
    exact isAttr_eq_false_of_isAbove h hcontent hw (hnode ▸ habove)

theorem enumerates_staticIds :
    d.Enumerates (fun x => ∃ s, d.Gives s ∧ s.node = x) (d.staticIds.map StaticId.node) := by
  have hf := forest_of_parse h
  apply hf.enumerates
  · intro x
    simp only [List.mem_map, mem_staticIds_iff h]
  · rw [List.pairwise_map]
    refine (List.pairwise_map.mp (hf.ordered_visits _)).filterMap _ fun v w hvw s hs s' hs' => ?_
    rwa [Document.node_of_staticId? hs, Document.node_of_staticId? hs']

theorem line_of_gives {s : StaticId} (hs : d.Gives s) : s.place.start.line = s.line := by
  obtain ⟨⟨l, content⟩, hget,
      ⟨name, equals, value, literals, rfl, hname, -, -, -, hplace⟩, hline⟩ := hs
  obtain ⟨l', hl', hsame⟩ := exists_line_of_parse h (Document.content?_of_get? hget) hname hplace
  rw [Document.location?, hget] at hl'
  cases hl'
  rw [hsame, hline]

end Parsed

/-- Those attributes are reported whose id an earlier one gives, with the line of the first one. -/
theorem uniqueId_finds {source : String} {keep : Bool} {d : Document}
    (h : Document.parse source keep = .ok d) (c : Context) :
    ∃ (ids : List StaticId) (found : List Offense), Rules.uniqueId.FindsIn d c found ∧
      d.Enumerates (fun x => ∃ s, d.Gives s ∧ s.node = x) (ids.map StaticId.node) ∧
      (∀ s ∈ ids, d.Gives s) ∧
      List.Forall₂ (fun s o => ∃ first, ids.find? (·.text == s.text) = some first ∧
        o = descriptor.offense (message s.text first.line) s.place) (StaticId.repeated ids) found ∧
      found.length + (ids.map StaticId.text).toFinset.card = ids.length := by
  have hreports :
      List.Forall₂ (fun s o => ∃ first, d.staticIds.find? (·.text == s.text) = some first ∧
      o = descriptor.offense (message s.text first.line) s.place)
        (StaticId.repeated d.staticIds) (check d []).1 := by
    rw [Document.check_eq_filterMap, List.filterMap_eq_flatMap_toList]
    refine forall₂_picked (fun x _ hx => ?_) fun x _ hx => ?_
    · obtain ⟨first, hfirst, hoffense⟩ := StaticId.offense?_of_mem (of_decide_eq_true hx)
      have hline := line_of_gives h ((mem_staticIds_iff h).mp (List.mem_of_find?_eq_some hfirst))
      exact ⟨_, by rw [hoffense]; rfl, first, hfirst, by rw [hline]⟩
    · rw [StaticId.offense?_of_not_mem (of_decide_eq_false hx)]
      rfl
  refine ⟨d.staticIds, (check d []).1, d.findsIn_check c, enumerates_staticIds h,
    fun s hs => (mem_staticIds_iff h).mp hs, hreports, ?_⟩
  rw [← hreports.length_eq, StaticId.repeated, List.length_map]
  exact StaticId.length_repeated_add_card [] d.staticIds

/-- The second line gives one id twice, and the third one gives it again, behind an attribute that
gives none. -/
theorem uniqueId_finds_second_line : ∃ (d : Document) (ids : List StaticId) (found : List Offense),
    Document.parse "<p\nid=a ID=' a '>\n<b Id='<%= x %>'><i id=a><u id=''><u id=b>" false = .ok d ∧
      Rules.uniqueId.FindsIn d {} found ∧
      found = [descriptor.offense (message "a" 2) ⟨⟨2, 8⟩, ⟨2, 13⟩⟩,
        descriptor.offense (message "a" 2) ⟨⟨3, 23⟩, ⟨3, 24⟩⟩] ∧
      d.Enumerates (fun x => ∃ s, d.Gives s ∧ s.node = x) (ids.map StaticId.node) ∧
      (StaticId.repeated ids).length = 2 ∧
      2 + (ids.map StaticId.text).toFinset.card = ids.length := by
  have hok :
      (Document.parse "<p\nid=a ID=' a '>\n<b Id='<%= x %>'><i id=a><u id=''><u id=b>"
        false).toOption.any
      (fun d => decide ((check d []).1 = [descriptor.offense (message "a" 2) ⟨⟨2, 8⟩, ⟨2, 13⟩⟩,
        descriptor.offense (message "a" 2) ⟨⟨3, 23⟩, ⟨3, 24⟩⟩])) = true := by
    decide +kernel
  obtain ⟨d, hd, hfacts⟩ := exists_ok_of_any hok
  obtain ⟨ids, found, hfinds, henumerates, -, hreports, hcount⟩ := uniqueId_finds hd {}
  obtain rfl : (check d []).1 = found := (d.findsIn_check {}).unique hfinds
  have hfound := of_decide_eq_true hfacts
  have hlength := hreports.length_eq
  rw [hfound] at hlength hcount
  exact ⟨d, ids, _, hd, hfinds, hfound, henumerates, hlength, hcount⟩

end TemplateLint
