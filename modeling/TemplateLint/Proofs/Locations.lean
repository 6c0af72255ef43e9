import TemplateLint.Proofs.Place
import TemplateLint.Proofs.RoundTrip

/-!
# Locations

In a parsed document the tokens tile the source, and the bytes of the source at a node's location
are the node's text (`parse_locations`).
-/

namespace TemplateLint

open Stretch

/-- The tokens reach from `p` to `q`, each over its own text and without a gap between two of
them. -/
def Tiles (p : Position) : List Token → Position → Prop
  | [], q => p = q
  | t :: rest, q =>
    t.location.start = p ∧ t.location.stop = p.advance t.chars ∧ Tiles t.location.stop rest q

theorem tiles_append {p q r : Position} {a b : List Token} (ha : Tiles p a q) (hb : Tiles q b r) :
    Tiles p (a ++ b) r := by
  induction a generalizing p with
  | nil =>
    obtain rfl : p = q := ha
    exact hb
  | cons t rest ih =>
    obtain ⟨hstart, hstop, hrest⟩ := ha
    exact ⟨hstart, hstop, ih hrest⟩

namespace Document

variable {d : Document} {id c : NodeId} {node : Node} {p : Position} {run : List Stretch}

/-! ## One run -/

theorem Runs.tiles (h : d.Runs p run)
    (hnodes : ∀ id ∈ nodes run, ∀ node, d.get? id = some node →
      Tiles node.location.start (d.tokens id) node.location.stop) :
    Tiles p ((run.map item).flatMap (Item.tokens d.tokens)) (p.advance (spelled run)) := by
  induction run generalizing p with
  | nil => rfl
  | cons s rest ih =>
    obtain ⟨⟨hplace, htext⟩, hrest⟩ := h
    have hrest' := ih hrest (by
      intro id hid
      apply hnodes
      rw [← List.singleton_append, nodes_append]
      exact List.mem_append_right _ hid)
    rw [List.map_cons, List.flatMap_cons, spelled_cons, Position.advance_append]
    refine tiles_append ?_ hrest'
    cases hitem : s.item with
    | token t =>
      rw [hitem] at hplace htext
      have hloc : t.location = ⟨p, p.advance s.text⟩ := by simpa [place] using hplace
      have hchars : t.chars = s.text := htext
      exact ⟨by rw [hloc], by rw [hloc, hchars], by rw [hloc]; rfl⟩
    | child id =>
      rw [hitem] at hplace
      obtain ⟨node, hget, hloc⟩ := Option.map_eq_some_iff.mp hplace
      have htiles := hnodes id (mem_nodes List.mem_cons_self hitem) node hget
      rw [hloc] at htiles
      exact htiles

theorem Runs.item_inside (h : d.Runs p run) {i : Item} (hi : i ∈ run.map item) :
    ∃ before after, spelled run = before ++ i.text d.text ++ after ∧
      d.place i = some ⟨p.advance before, p.advance (before ++ i.text d.text)⟩ := by
  obtain ⟨s, hs, rfl⟩ := List.mem_map.mp hi
  obtain ⟨front, back, rfl⟩ := List.append_of_mem hs
  rw [runs_append] at h
  obtain ⟨-, ⟨hplace, htext⟩, -⟩ := h
  rw [htext]
  exact ⟨spelled front, spelled back, by simp, by rw [Position.advance_append]; exact hplace⟩

theorem Runs.inside (h : d.Runs p run) (hc : c ∈ nodes run) :
    ∃ before after, spelled run = before ++ d.text c ++ after ∧
      d.location? c = some ⟨p.advance before, p.advance (before ++ d.text c)⟩ := by
  rw [nodes, Item.mem_filterMap_child?] at hc
  exact h.item_inside hc

theorem Runs.ordered (h : d.Runs p run) :
    (nodes run).Pairwise fun a b => ∃ la lb, d.location? a = some la ∧ d.location? b = some lb ∧
      la.stop.le lb.start = true := by
  induction run generalizing p with
  | nil => exact List.Pairwise.nil
  | cons s rest ih =>
    obtain ⟨⟨hplace, -⟩, hrest⟩ := h
    cases hitem : s.item with
    | token t =>
      rw [nodes_cons_token hitem]
      exact ih hrest
    | child id =>
      rw [nodes_cons_child hitem, List.pairwise_cons]
      refine ⟨?_, ih hrest⟩
      intro b hb
      obtain ⟨before, -, -, hloc⟩ := hrest.inside hb
      rw [hitem] at hplace
      exact ⟨_, _, hplace, hloc, Position.le_advance _ _⟩

/-! ## Exact documents -/

theorem Exact.stop_eq (he : d.Exact) (hg : d.Grounded) (hget : d.get? id = some node) :
    node.location.stop = node.location.start.advance (d.text id) := by
  obtain ⟨run, hitems, hruns, hstop⟩ := he id node hget
  rw [hg.text_of_runs hget hitems hruns, hstop]

theorem Exact.tiles (he : d.Exact) (hg : d.Grounded) (hget : d.get? id = some node) :
    Tiles node.location.start (d.tokens id) node.location.stop := by
  induction id using hg.induct generalizing node with
  | h id ih =>
    obtain ⟨run, hitems, hruns, hstop⟩ := he id node hget
    rw [hg.tokens_eq hget, ← hitems, hstop]
    apply hruns.tiles
    intro c hc other hother
    rw [nodes_of_items hitems, ← children_of_get? hget] at hc
    exact ih c hc hother

theorem Exact.child_inside (he : d.Exact) (hg : d.Grounded) (hget : d.get? id = some node)
    (hc : c ∈ node.children) :
    ∃ before after, d.text id = before ++ d.text c ++ after ∧
      d.location? c = some ⟨node.location.start.advance before,
        node.location.start.advance (before ++ d.text c)⟩ := by
  obtain ⟨run, hitems, hruns, -⟩ := he id node hget
  rw [hg.text_of_runs hget hitems hruns]
  apply hruns.inside
  rw [nodes_of_items hitems]
  exact hc

theorem Exact.covers_child (he : d.Exact) (hg : d.Grounded) (hget : d.get? id = some node)
    (hc : c ∈ node.children) : ∃ l, d.location? c = some l ∧ node.location.covers l = true := by
  obtain ⟨before, after, htext, hloc⟩ := he.child_inside hg hget hc
  have hstop : (node.location.start.advance (before ++ d.text c)).le node.location.stop = true := by
    rw [he.stop_eq hg hget, htext, Position.advance_append _ (before ++ d.text c)]
    exact Position.le_advance _ after
  exact ⟨_, hloc, Bool.and_eq_true_iff.mpr ⟨Position.le_advance _ before, hstop⟩⟩

theorem Exact.children_ordered (he : d.Exact) (hget : d.get? id = some node) :
    node.children.Pairwise fun a b => ∃ la lb, d.location? a = some la ∧ d.location? b = some lb ∧
      la.stop.le lb.start = true := by
  obtain ⟨run, hitems, hruns, -⟩ := he id node hget
  have hnodes : nodes run = node.children := nodes_of_items hitems
  rw [← hnodes]
  exact hruns.ordered

theorem Exact.below_inside (he : d.Exact) (hg : d.Grounded) {a b : NodeId} (hbelow : d.Below a b)
    {start : Position} (ha : d.location? a = some ⟨start, start.advance (d.text a)⟩) :
    ∃ before after, d.text a = before ++ d.text b ++ after ∧
      d.location? b = some ⟨start.advance before, start.advance (before ++ d.text b)⟩ := by
  induction hbelow with
  | refl => exact ⟨[], [], by simp, ha⟩
  | @tail b c _ hc ih =>
    obtain ⟨before, after, htext, hloc⟩ := ih
    obtain ⟨node, hget, hnode⟩ := Option.map_eq_some_iff.mp hloc
    rw [children_of_get? hget] at hc
    obtain ⟨before', after', htext', hloc'⟩ := he.child_inside hg hget hc
    rw [hnode] at hloc'
    refine ⟨before ++ before', after' ++ after, ?_, ?_⟩
    · rw [htext, htext']; simp
    · rw [hloc']; simp

/-- The text of a token is a part of what its node stands below, and its location tells which. -/
theorem Exact.token_inside (he : d.Exact) (hg : d.Grounded) {a b : NodeId} (hbelow : d.Below a b)
    {start : Position} (ha : d.location? a = some ⟨start, start.advance (d.text a)⟩)
    (hget : d.get? b = some node) {t : Token} (ht : .token t ∈ node.content.items) :
    ∃ before after, d.text a = before ++ t.chars ++ after ∧
      t.location = ⟨start.advance before, start.advance (before ++ t.chars)⟩ := by
  obtain ⟨before, after, htext, hloc⟩ := he.below_inside hg hbelow ha
  obtain ⟨run, hitems, hruns, -⟩ := he b node hget
  have hspelled := hg.text_of_runs hget hitems hruns
  rw [← hitems] at ht
  obtain ⟨before', after', htext', hplace⟩ := hruns.item_inside ht
  have hstart : node.location.start = start.advance before := by
    rw [location?, hget] at hloc
    exact congrArg Location.start (Option.some.inj hloc)
  refine ⟨before ++ before', after' ++ after, ?_, ?_⟩
  · rw [htext, hspelled, htext']
    simp [Item.text]
  · rw [Option.some.inj hplace, hstart]
    simp [Item.text]

end Document

/-! ## Parsed documents -/

/-- The tokens of a parsed document tile its source, and at a node's location stands the node's
text. -/
theorem parse_locations {source : String} {d : Document} (h : Document.parse source true = .ok d) :
    Tiles .start (d.tokens d.root) (Position.start.advance source.toList) ∧
    (d.tokens d.root).flatMap Token.chars = source.toList ∧
    d.location? d.root = some ⟨.start, Position.start.advance source.toList⟩ ∧
    ∀ id node, d.get? id = some node →
      source.toByteArray.extract (byteOffset source node.location.start)
          (byteOffset source node.location.stop) = (String.ofList (d.text id)).toByteArray ∧
      node.location.start.le node.location.stop = true ∧
      (∀ c ∈ node.children, ∃ l, d.location? c = some l ∧ node.location.covers l = true) ∧
      node.children.Pairwise fun a b => ∃ la lb, d.location? a = some la ∧ d.location? b = some lb ∧
        la.stop.le lb.start = true := by
  have hf := forest_of_parse h
  obtain ⟨hexact, hloc, htext⟩ := exact_of_parse h
  have hg := hf.grounded
  refine ⟨?_, by rw [← d.text_eq_tokens, htext], hloc, ?_⟩
  · obtain ⟨root, hget, hroot⟩ := Option.map_eq_some_iff.mp hloc
    have htiles := hexact.tiles hg hget
    rw [hroot] at htiles
    exact htiles
  · intro id node hget
    refine ⟨?_, ?_, fun c hc => hexact.covers_child hg hget hc, hexact.children_ordered hget⟩
    · have hbelow := hf.below_of_top_eq (Document.isLive_of_get? hget)
      obtain ⟨before, after, hsplit, hplace⟩ := hexact.below_inside hg hbelow (by rw [hloc, htext])
      have hnode : node.location = ⟨Position.start.advance before,
          Position.start.advance (before ++ d.text id)⟩ := by
        rw [Document.location?, hget] at hplace
        exact Option.some.inj hplace
      have hsource : source = String.ofList (before ++ d.text id ++ after) := by
        rw [← hsplit, htext, String.ofList_toList]
      rw [hnode, hsource]
      exact extract_between before (d.text id) after
    · rw [hexact.stop_eq hg hget]
      exact Position.le_advance _ _

/-- The value of the unclosed element's attribute is empty, and the text after it has two lines. -/
theorem parse_locations_two_lines : ∃ d, Document.parse "<p a= >é\n<br>x" true = .ok d ∧
    Tiles .start (d.tokens d.root) ⟨2, 5⟩ ∧ ∀ id node, d.get? id = some node →
      "<p a= >é\n<br>x".toByteArray.extract (byteOffset "<p a= >é\n<br>x" node.location.start)
        (byteOffset "<p a= >é\n<br>x" node.location.stop) =
          (String.ofList (d.text id)).toByteArray := by
  have hok : (Document.parse "<p a= >é\n<br>x" true).toOption.any (fun _ => true) =
      true := by decide +kernel
  obtain ⟨d, hd, -⟩ := exists_ok_of_any hok
  exact ⟨d, hd, (parse_locations hd).1,
    fun id node hget => ((parse_locations hd).2.2.2 id node hget).1⟩

end TemplateLint
