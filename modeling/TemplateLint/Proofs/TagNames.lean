import TemplateLint.Proofs.DocumentOrder
import TemplateLint.Proofs.FullPass
import TemplateLint.Proofs.Reread

/-!
# Names of tags

A tag is reported whose name is not in lowercase, unless it is inside an `svg` element. The walk
ends at such an element, which answers for its own tags. Main statements: a walk and the children at
which it ends are in order (`Forest.ordered_reach`), and which tags are reported (`tagName_finds`).
-/

namespace TemplateLint

open Rules.TagName

namespace Document

variable {d : Document} {a p t : NodeId} {v w : Visit}

/-! ## Where a walk ends -/

theorem below_of_mem_reach {skip : Visit → Bool} (hv : d.IsVisit v) (hx : t ∈ v.reach skip) :
    d.Below v.id t := by
  unfold Visit.reach at hx
  split at hx
  · rcases List.mem_cons.mp hx with rfl | hchild
    · exact .refl d _
    · exact .head (children_of_get? hv.node ▸ hchild) (.refl d t)
  · rw [List.mem_singleton.mp hx]
    exact .refl d _

namespace Forest

variable (hf : d.Forest [d.root])
include hf

theorem below_antisymm (h : d.Below a t) (h' : d.Below t a) : a = t := by
  rcases Relation.ReflTransGen.cases_head h with rfl | ⟨c, hc, hct⟩
  · rfl
  · exact absurd (hct.trans h') (hf.grounded.not_below_of_child hc)

theorem precedes_of_child (hp : t ∈ d.children p) : d.Precedes p t := by
  refine Or.inl ⟨.head hp (.refl d t), ?_⟩
  rintro rfl
  exact hf.grounded.not_below_of_child hp (.refl d p)

theorem ordered_reach_visit (skip : Visit → Bool) (hv : d.IsVisit v) :
    (v.reach skip).Pairwise d.Precedes := by
  unfold Visit.reach
  split
  · have hkids : d.children v.id = v.node.children := children_of_get? hv.node
    rw [← hkids, List.pairwise_cons]
    refine ⟨fun t ht => hf.precedes_of_child ht,
      List.pairwise_iff_forall_sublist.mpr fun hsub => ?_⟩
    exact Or.inr ⟨v.id, _, _, hsub, .refl d _, .refl d _⟩
  · exact List.pairwise_singleton _ _

theorem precedes_of_mem_reach {skip : Visit → Bool} {x y : NodeId} (hv : v ∈ d.visits skip)
    (hw : w ∈ d.visits skip) (h : d.Precedes v.id w.id) (hx : x ∈ v.reach skip)
    (hy : y ∈ w.reach skip) : d.Precedes x y := by
  obtain ⟨hvisit, -⟩ := hf.mem_visits_iff.mp hv
  obtain ⟨hvisit', hopen⟩ := hf.mem_visits_iff.mp hw
  have hbelow := below_of_mem_reach hvisit' hy
  rcases h with ⟨hunder, hne⟩ | ⟨p, a, b, hsub, ha, hb⟩
  · -- The walk went on below the first one, so this stands for itself only.
    have hself : v.reach skip = [v.id] := by
      rw [Visit.reach, hopen v hvisit hunder hne]
      rfl
    rw [hself, List.mem_singleton] at hx
    subst hx
    refine Or.inl ⟨hunder.trans hbelow, ?_⟩
    rintro rfl
    exact hne (hf.below_antisymm hunder hbelow)
  · exact Or.inr ⟨p, a, b, hsub, ha.trans (below_of_mem_reach hvisit hx), hb.trans hbelow⟩

/-- The nodes of a walk are in order, with the children of those at which it ends. -/
theorem ordered_reach (skip : Visit → Bool) :
    ((d.visits skip).flatMap (Visit.reach skip)).Pairwise d.Precedes := by
  rw [List.pairwise_flatMap]
  refine ⟨fun v hv => hf.ordered_reach_visit skip (hf.mem_visits_iff.mp hv).1, ?_⟩
  have hordered := List.pairwise_map.mp (hf.ordered_visits skip)
  exact hordered.imp_of_mem fun hv hw h x hx y hy => hf.precedes_of_mem_reach hv hw h hx hy

end Forest

/-! ## Tags -/

def IsTag (d : Document) (t : NodeId) (name : Token) : Prop :=
  ∃ c, d.content? t = some c ∧ c.nameToken? = some name

/-- The node is a tag whose name is not what it is in lowercase. -/
def HasCapitals (d : Document) (t : NodeId) : Prop :=
  ∃ name, d.IsTag t name ∧ Text.Case.lower name.text ≠ name.text

/-- The tag is the open tag of the element, or its close tag. -/
def IsOwnTag (d : Document) (a t : NodeId) : Prop :=
  ∃ first body last isVoid, d.content? a = some (.element first body last isVoid) ∧
    (t = first ∨ last = some t)

/-- No `svg` element is above the tag, unless as the element whose tag it is. -/
def IsOutsideSvg (d : Document) (t : NodeId) : Prop :=
  ∀ a, d.IsAbove a t → d.IsNamed "svg" a → d.IsOwnTag a t

theorem isSvg_iff : isSvg d a = true ↔ d.IsNamed "svg" a := by
  rw [isSvg, Option.any_eq_true]
  simp only [IsNamed, Text.sameLetters, Bool.beq_comm]

theorem IsOwnTag.mem_children (h : d.IsOwnTag a t) : t ∈ d.children a := by
  obtain ⟨first, body, last, isVoid, ha, rfl | rfl⟩ :=
    h <;> simp [children_of_content? ha, Content.children]

def isCapital (d : Document) (t : NodeId) : Bool := (d.content? t).any fun c => (lowerTag? c).isSome

theorem isSome_lowerTag?_iff (c : Content) :
    (lowerTag? c).isSome = true ↔ ∃ name, c.nameToken? = some name ∧
      Text.Case.lower name.text ≠ name.text := by
  cases c with
  | openTag opening name children closing => simp [lowerTag?, lowered?, Content.nameToken?]
  | closeTag opening name trailing closing => simp [lowerTag?, lowered?, Content.nameToken?]
  | _ => simp [lowerTag?, Content.nameToken?]

theorem isCapital_iff : d.isCapital t = true ↔ d.HasCapitals t := by
  simp only [isCapital, Option.any_eq_true, isSome_lowerTag?_iff, HasCapitals, IsTag]
  grind

theorem checkTag_of_isNone {c : Content} (h : (lowerTag? c).isSome = false) :
    checkTag t c = [] := by
  rw [List.eq_nil_iff_forall_not_mem]
  intro o ho
  rw [(offers_of_mem_checkTag ho).2] at h
  cases h

theorem checkTag_of_isSome {c : Content} (h : (lowerTag? c).isSome = true) :
    ∃ o name, checkTag t c = [o] ∧ c.nameToken? = some name ∧ o.location = name.location := by
  cases c with
  | openTag opening name children closing =>
    obtain ⟨lower, hlower⟩ := Option.isSome_iff_exists.mp (by simpa [lowerTag?] using h)
    exact ⟨_, name, by rw [checkTag, hlower]; rfl, rfl, rfl⟩
  | closeTag opening name trailing closing =>
    obtain ⟨lower, hlower⟩ := Option.isSome_iff_exists.mp (by simpa [lowerTag?] using h)
    exact ⟨_, name, by rw [checkTag, hlower]; rfl, rfl, rfl⟩
  | _ => simp [lowerTag?] at h

/-- What is to be said of a node, whatever it is. -/
def checkAt (d : Document) (t : NodeId) : List Offense :=
  match d.get? t with
  | some n => checkTag t n.content
  | none => []

theorem checkAt_of_content? {c : Content} (h : d.content? t = some c) :
    d.checkAt t = checkTag t c := by
  obtain ⟨n, hn, rfl⟩ := get?_of_content? h
  rw [checkAt, hn]

theorem checkOwnTag_eq_checkAt {isOwn : Content → Bool}
    (h : ∃ c, d.content? t = some c ∧ isOwn c = true) : checkOwnTag d isOwn t = d.checkAt t := by
  obtain ⟨c, hc, hown⟩ := h
  obtain ⟨n, hn, rfl⟩ := get?_of_content? hc
  simp only [checkOwnTag, checkAt, hn, hown, if_true]

theorem checkAt_of_not_capital (h : d.isCapital t = false) : d.checkAt t = [] := by
  unfold checkAt
  split
  · rename_i node hnode
    rw [isCapital, content?_of_get? hnode] at h
    exact checkTag_of_isNone h
  · rfl

theorem checkAt_of_capital (h : d.isCapital t = true) :
    ∃ o, d.checkAt t = [o] ∧ ∃ name, d.IsTag t name ∧ o.rule = descriptor.name ∧
      o.location = name.location ∧ o.fix = some ⟨t, .safe⟩ := by
  obtain ⟨c, hc, hsome⟩ := (Option.any_eq_true _ _).mp h
  obtain ⟨o, name, ho, hname, hlocation⟩ := checkTag_of_isSome (t := t) hsome
  have hoffers := (offers_of_mem_checkTag (ho ▸ List.mem_singleton_self o)).1
  exact ⟨o, (checkAt_of_content? hc).trans ho, name, ⟨c, hc, hname⟩, hoffers.rule,
    hlocation, hoffers.fix⟩

/-! ## Visits -/

def answeredTags (d : Document) (v : Visit) : List NodeId :=
  match v.node.content with
  | .element first _ last _ => if isSvg d v.id then first :: last.toList else []
  | _ => [v.id]

/-- All nodes that are looked at, whether they are tags or not. -/
def checkedTags (d : Document) : List NodeId :=
  (d.visits fun v => isSvg d v.id).flatMap d.answeredTags

/-- Every element begins with an open tag and ends with a close tag, if any. -/
def HasOwnTags (d : Document) : Prop :=
  ∀ {x first : NodeId} {body : List NodeId} {last : Option NodeId} {isVoid : Bool},
    d.content? x = some (.element first body last isVoid) →
      (∃ c, d.content? first = some c ∧ c.isOpenTag = true) ∧
        ∀ y ∈ last, ∃ c, d.content? y = some c ∧ c.isCloseTag = true

theorem checkVisit_eq_flatMap (hv : d.IsVisit v) (hown : d.HasOwnTags) :
    checkVisit d v = (d.answeredTags v).flatMap d.checkAt := by
  have hnode := content?_of_get? hv.node
  have hself : d.checkAt v.id = checkTag v.id v.node.content := checkAt_of_content? hnode
  cases hcontent : v.node.content with
  | element first body last isVoid =>
    rw [hcontent] at hnode
    obtain ⟨hfirst, hlast⟩ := hown hnode
    have hlasts : last.toList.flatMap (checkOwnTag d Content.isCloseTag) =
        last.toList.flatMap d.checkAt :=
      List.flatMap_congr fun y hy => checkOwnTag_eq_checkAt (hlast y (Option.mem_toList.mp hy))
    simp only [checkVisit, answeredTags, hcontent, checkOwnTag_eq_checkAt hfirst, hlasts]
    split <;> rfl
  | _ => simp [checkVisit, answeredTags, hself, hcontent]

theorem answeredTags_sublist_reach (v : Visit) :
    (d.answeredTags v).Sublist (v.reach fun v => isSvg d v.id) := by
  unfold answeredTags
  split
  · rename_i first body last isVoid hcontent
    split
    · rename_i hsvg
      rw [Visit.reach, if_pos hsvg, Node.children, hcontent]
      exact .cons _ (.cons_cons _ (List.sublist_append_right body last.toList))
    · exact List.nil_sublist _
  · exact v.self_sublist_reach _

theorem HasCapitals.not_element (h : d.HasCapitals t) (first : NodeId) (body : List NodeId)
    (last : Option NodeId) (isVoid : Bool) :
    d.content? t ≠ some (.element first body last isVoid) := by
  obtain ⟨name, ⟨c, hc, hname⟩, -⟩ := h
  rw [hc, ne_eq, Option.some.injEq]
  rintro rfl
  cases hname

theorem mem_answeredTags_iff (hv : d.IsVisit v) (h : d.HasCapitals t) :
    t ∈ d.answeredTags v ↔ t = v.id ∨ d.IsNamed "svg" v.id ∧ d.IsOwnTag v.id t := by
  have hnode := content?_of_get? hv.node
  cases hcontent : v.node.content with
  | element first body last isVoid =>
    rw [hcontent] at hnode
    have hne : t ≠ v.id := by
      rintro rfl
      exact h.not_element _ _ _ _ hnode
    have hown : d.IsOwnTag v.id t ↔ t = first ∨ last = some t := by simp [IsOwnTag, hnode]
    simp only [answeredTags, hcontent, ← isSvg_iff, hown, hne, false_or]
    cases isSvg d v.id <;> simp
  | _ =>
    have hown : ¬ d.IsOwnTag v.id t := by
      rintro ⟨_, _, _, _, helement, -⟩
      rw [hnode, hcontent] at helement
      cases helement
    simp [answeredTags, hcontent, hown]

namespace Forest

variable (hf : d.Forest [d.root])
include hf

theorem mem_visits_isSvg_iff : v ∈ d.visits (fun v => isSvg d v.id) ↔
    d.IsVisit v ∧ ∀ a, d.IsAbove a v.id → ¬ d.IsNamed "svg" a := by
  rw [hf.mem_visits_iff_above]
  refine and_congr_right fun _ => ⟨fun h a ha hsvg => ?_, fun h w _ hw => ?_⟩
  · obtain ⟨_, _, _, _, hcontent⟩ := hsvg.element
    obtain ⟨w, hvisit, rfl⟩ := hf.exists_visit hcontent
    rw [← isSvg_iff, h _ hvisit ha] at hsvg
    cases hsvg
  · rw [Bool.eq_false_iff, ne_eq, isSvg_iff]
    exact h w.id hw

theorem parent?_of_isOwnTag (h : d.IsOwnTag a t) : d.parent? t = some a :=
  (hf.child_iff a t).mp h.mem_children

theorem check_eq_flatMap (hown : d.HasOwnTags) : check d = d.checkedTags.flatMap d.checkAt := by
  rw [checkedTags, List.flatMap_assoc]
  exact List.flatMap_congr fun v hv => checkVisit_eq_flatMap (hf.mem_visits_iff.mp hv).1 hown

theorem ordered_checkedTags : d.checkedTags.Pairwise d.Precedes := by
  refine (hf.ordered_reach fun v => isSvg d v.id).sublist ?_
  exact List.Sublist.flatMap_right _ fun v _ => answeredTags_sublist_reach v

theorem mem_checkedTags_iff (hcapital : d.HasCapitals t) :
    t ∈ d.checkedTags ↔ d.IsOutsideSvg t := by
  -- A tag for which an `svg` element answers is its child, so that no other one is around it.
  rw [checkedTags, List.mem_flatMap]
  constructor
  · rintro ⟨v, hv, ht⟩ a ha hsvg
    obtain ⟨hvisit, hclear⟩ := hf.mem_visits_isSvg_iff.mp hv
    rcases (mem_answeredTags_iff hvisit hcapital).mp ht with rfl | ⟨-, hown⟩
    · exact absurd hsvg (hclear a ha)
    · rcases (isAbove_iff_of_parent? (hf.parent?_of_isOwnTag hown)).mp ha with rfl | ha
      · exact hown
      · exact absurd hsvg (hclear a ha)
  · intro houtside
    by_cases hinside : ∃ a, d.IsAbove a t ∧ d.IsNamed "svg" a
    · obtain ⟨a, ha, hsvg⟩ := hinside
      have hown := houtside a ha hsvg
      have hparent := hf.parent?_of_isOwnTag hown
      obtain ⟨_, _, _, _, hcontent⟩ := hsvg.element
      obtain ⟨v, hvisit, rfl⟩ := hf.exists_visit hcontent
      refine ⟨v, hf.mem_visits_isSvg_iff.mpr ⟨hvisit, fun b hb hsvg' => ?_⟩,
        (mem_answeredTags_iff hvisit hcapital).mpr (Or.inr ⟨hsvg, hown⟩)⟩
      have hown' := houtside b ((isAbove_iff_of_parent? hparent).mpr (Or.inr hb)) hsvg'
      have hsame := Option.some.inj (hparent.symm.trans (hf.parent?_of_isOwnTag hown'))
      exact (hf.isAbove_iff.mp hb).2 hsame.symm
    · obtain ⟨name, ⟨c, hc, -⟩, -⟩ := id hcapital
      obtain ⟨v, hvisit, rfl⟩ := hf.exists_visit hc
      refine ⟨v, hf.mem_visits_isSvg_iff.mpr ⟨hvisit, fun a ha hsvg => hinside ⟨a, ha, hsvg⟩⟩, ?_⟩
      exact (mem_answeredTags_iff hvisit hcapital).mpr (Or.inl rfl)

end Forest

end Document

/-- Tags with capitals outside `svg` elements are reported, each once and in order of the
document. -/
theorem tagName_finds {source : String} {keep : Bool} {d : Document}
    (h : Document.parse source keep = .ok d) (c : Context) :
    ∃ tags found, Rules.tagName.FindsIn d c found ∧
      d.Enumerates (fun t => d.HasCapitals t ∧ ∀ a, d.IsAbove a t → d.IsNamed "svg" a →
        d.IsOwnTag a t) tags ∧
      List.Forall₂ (fun t o => ∃ name, d.IsTag t name ∧ o.rule = descriptor.name ∧
        o.location = name.location ∧
        o.fix = some ⟨t, .safe⟩) tags found ∧
      ∀ a, d.IsNamed "svg" a → (∀ b, d.IsAbove b a → ¬ d.IsNamed "svg" b) →
        ∀ t, d.IsAbove a t → (t ∈ tags ↔ d.HasCapitals t ∧ d.IsOwnTag a t) := by
  have hf := forest_of_parse h
  have henumerates : d.Enumerates (fun t => d.HasCapitals t ∧ d.IsOutsideSvg t)
      (d.checkedTags.filter d.isCapital) := by
    refine hf.enumerates (fun t => ?_) (hf.ordered_checkedTags.filter _)
    rw [List.mem_filter, Document.isCapital_iff, and_comm]
    exact and_congr_right hf.mem_checkedTags_iff
  refine ⟨_, check d, Rule.findsIn_plain _ _ _ d c, henumerates, ?_, ?_⟩
  · rw [hf.check_eq_flatMap (own_tags_of_parse h), ← List.map_id (d.checkedTags.filter d.isCapital)]
    exact forall₂_picked (fun t _ => Document.checkAt_of_capital)
      fun t _ => Document.checkAt_of_not_capital
  · intro a hsvg houtermost t ha
    rw [henumerates.mem_iff]
    refine and_congr_right fun _ => ⟨fun houtside => houtside a ha hsvg, fun hown b hb hsvg' => ?_⟩
    rcases (Document.isAbove_iff_of_parent? (hf.parent?_of_isOwnTag hown)).mp hb with rfl | hb
    · exact hown
    · exact absurd hsvg' (houtermost b hb)

/-- The outer `svg` element is reported for its own two tags; nothing inside it is. -/
theorem tagName_finds_around_svg : ∃ d tags found,
    Document.parse "<P>\n<SVG><G><Svg></Svg></G></Svg></P>" true = .ok d ∧
      Rules.tagName.FindsIn d {} found ∧
      found.map (·.location) =
        [⟨⟨1, 1⟩, ⟨1, 2⟩⟩, ⟨⟨2, 1⟩, ⟨2, 4⟩⟩, ⟨⟨2, 25⟩, ⟨2, 28⟩⟩, ⟨⟨2, 31⟩, ⟨2, 32⟩⟩] ∧
        tags.length = 4 ∧
      d.Enumerates (fun t => d.HasCapitals t ∧ ∀ a, d.IsAbove a t → d.IsNamed "svg" a →
        d.IsOwnTag a t) tags := by
  have hok : (Document.parse "<P>\n<SVG><G><Svg></Svg></G></Svg></P>" true).toOption.any (fun d =>
      decide ((check d).map (·.location) =
        [⟨⟨1, 1⟩, ⟨1, 2⟩⟩, ⟨⟨2, 1⟩, ⟨2, 4⟩⟩, ⟨⟨2, 25⟩, ⟨2, 28⟩⟩, ⟨⟨2, 31⟩, ⟨2, 32⟩⟩])) = true := by
    decide +kernel
  obtain ⟨d, hd, hfacts⟩ := exists_ok_of_any hok
  obtain ⟨tags, found, hfinds, henumerates, hreports, -⟩ := tagName_finds hd {}
  obtain rfl : check d = found := (Rule.findsIn_plain _ _ _ d {}).unique hfinds
  have hplaces := of_decide_eq_true hfacts
  refine ⟨d, tags, check d, hd, hfinds, hplaces, ?_, henumerates⟩
  rw [hreports.length_eq, ← List.length_map (f := Offense.location), hplaces]
  rfl

end TemplateLint
