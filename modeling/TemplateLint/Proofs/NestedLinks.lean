import TemplateLint.Proofs.DocumentOrder

/-!
# Links in links

A link in a link is reported at its open tag. Whether it is in one depends on what is above it, at
any depth, and on nothing that comes before it. Main statement: which links are reported, and in
which order (`nestedLink_finds`).
-/

namespace TemplateLint

open Rules.NestedLink

namespace Document

variable {d : Document} {x y : NodeId}

theorem isLinkNode_iff : isLinkNode d x = true ↔ d.IsNamed "a" x := by
  rw [isLinkNode, Option.any_eq_true]
  rfl

/-- The node is a link below another one. -/
def IsInnerLink (d : Document) (x : NodeId) : Prop :=
  d.IsNamed "a" x ∧ ∃ y, d.IsAbove y x ∧ d.IsNamed "a" y

def showsInnerLink (d : Document) (v : Visit) : Bool :=
  isLinkNode d v.id && v.ancestors.any (isLinkNode d)

theorem checkVisit_of_not_shows {v : Visit} (h : d.showsInnerLink v = false) :
    checkVisit d v = [] := by
  unfold checkVisit
  split
  · exact if_neg (Bool.eq_false_iff.mp h)
  · rfl

variable (hf : d.Forest [d.root])
include hf

theorem Forest.showsInnerLink_iff {v : Visit} (hv : d.IsVisit v) :
    d.showsInnerLink v = true ↔ d.IsInnerLink v.id := by
  simp only [showsInnerLink, Bool.and_eq_true, List.any_eq_true, isLinkNode_iff,
    hf.mem_climbs_iff hv.climbs]
  rfl

theorem Forest.checkVisit_of_shows {v : Visit} (hv : d.IsVisit v) (h : d.showsInnerLink v = true) :
    ∃ o, checkVisit d v = [o] ∧ ∃ first body last isVoid location,
      d.content? v.id = some (.element first body last isVoid) ∧ d.location? first = some location ∧
        o = descriptor.offense message location := by
  obtain ⟨first, body, last, isVoid, hcontent⟩ := ((hf.showsInnerLink_iff hv).mp h).1.element
  have hnode : v.node.content = .element first body last isVoid := by
    rw [content?_of_get? hv.node] at hcontent
    exact Option.some.inj hcontent
  have hchild : first ∈ d.children v.id := by simp [children_of_content? hcontent, Content.children]
  obtain ⟨tag, htag⟩ := isLive_iff.mp (hf.isLive_of_child hchild)
  have hlocation : d.location? first = some tag.location := by rw [location?, htag, Option.map_some]
  refine ⟨_, ?_, first, body, last, isVoid, tag.location, hcontent, hlocation, rfl⟩
  rw [checkVisit, hnode]
  exact (if_pos h).trans (by rw [hlocation]; rfl)

theorem Forest.isAbove_of_body {first z : NodeId} {body : List NodeId}
    {last : Option NodeId} {isVoid : Bool}
    (hx : d.content? x = some (.element first body last isVoid))
    (hy : y ∈ body) (hz : d.Below y z) :
    d.IsAbove x z := by
  have hchild : y ∈ d.children x := by simp [children_of_content? hx, Content.children, hy]
  refine hf.isAbove_iff.mpr ⟨.head hchild hz, ?_⟩
  rintro rfl
  exact hf.grounded.not_below_of_child hchild hz

end Document

/-- The links below others are reported, each once and in order of the document, at their open
tags. -/
theorem nestedLink_finds {source : String} {keep : Bool} {d : Document}
    (h : Document.parse source keep = .ok d) (c : Context) :
    ∃ links found, Rules.nestedLink.FindsIn d c found ∧
      d.Enumerates (fun x => d.IsNamed "a" x ∧ ∃ y, d.IsAbove y x ∧ d.IsNamed "a" y) links ∧
      List.Forall₂ (fun x o => ∃ first body last isVoid location,
        d.content? x = some (.element first body last isVoid) ∧ d.location? first = some location ∧
          o = descriptor.offense message location) links found ∧
      ∀ x first body last isVoid,
        d.content? x = some (.element first body last isVoid) → d.IsNamed "a" x →
        ∀ y ∈ body, ∀ z, d.Below y z → d.IsNamed "a" z → z ∈ links := by
  have hf := forest_of_parse h
  have henumerates : d.Enumerates d.IsInnerLink
      ((d.allVisits.filter d.showsInnerLink).map Visit.id) := by
    refine hf.enumerates_filter fun x => ⟨?_, fun hx => ?_⟩
    · rintro ⟨v, hv, hshows, rfl⟩
      exact (hf.showsInnerLink_iff (hf.mem_visits_iff.mp hv).1).mp hshows
    · obtain ⟨_, _, _, _, hcontent⟩ := hx.1.element
      obtain ⟨v, hvisit, rfl⟩ := hf.exists_visit hcontent
      exact ⟨v, hf.mem_visits_iff.mpr ⟨hvisit, fun _ _ _ _ => rfl⟩,
        (hf.showsInnerLink_iff hvisit).mpr hx, rfl⟩
  refine ⟨_, check d, Rule.findsIn_plain _ _ _ d c, henumerates, forall₂_picked ?_ ?_, ?_⟩
  · exact fun v hv => hf.checkVisit_of_shows (hf.mem_visits_iff.mp hv).1
  · exact fun v _ => Document.checkVisit_of_not_shows
  · intro x first body last isVoid hx hname y hy z hz hname'
    exact (henumerates.mem_iff z).mpr ⟨hname', x, hf.isAbove_of_body hx hy hz, hname⟩

/-- The outer link lasts to the end of the text; another close tag ends the first one in it. -/
theorem nestedLink_finds_unclosed : ∃ d links found,
    Document.parse "<a>1<b><A>2</b>\n<i><a/></i><p>" false = .ok d ∧
      Rules.nestedLink.FindsIn d {} found ∧
      found.map (·.location) = [⟨⟨1, 7⟩, ⟨1, 10⟩⟩, ⟨⟨2, 3⟩, ⟨2, 7⟩⟩] ∧ links.length = 2 ∧
      d.Enumerates (fun x => d.IsNamed "a" x ∧ ∃ y, d.IsAbove y x ∧ d.IsNamed "a" y) links := by
  have hok : (Document.parse "<a>1<b><A>2</b>\n<i><a/></i><p>" false).toOption.any (fun d =>
      decide ((check d).map (·.location) = [⟨⟨1, 7⟩, ⟨1, 10⟩⟩, ⟨⟨2, 3⟩, ⟨2, 7⟩⟩])) = true := by
    decide +kernel
  obtain ⟨d, hd, hfacts⟩ := exists_ok_of_any hok
  obtain ⟨links, found, hfinds, henumerates, hreports, -⟩ := nestedLink_finds hd {}
  obtain rfl : check d = found := (Rule.findsIn_plain _ _ _ d {}).unique hfinds
  have hplaces := of_decide_eq_true hfacts
  refine ⟨d, links, check d, hd, hfinds, hplaces, ?_, henumerates⟩
  rw [hreports.length_eq, ← List.length_map (f := Offense.location), hplaces]
  rfl

end TemplateLint
