import TemplateLint.Proofs.DroppedBlanks

/-!
# Lints without blanks

No rule of the catalog looks at the blanks of a tag, and no place is measured from one. So a
template gives the same tree whether blanks are kept or not, but for the blanks and the ids, and the
same lint, but for the ids of nodes to mend. Main statement: `parse_dropBlanks`.
-/

namespace TemplateLint

open Markup

/-! ## New ids in reports -/

def Offense.renumber (new : NodeId → NodeId) (o : Offense) : Offense :=
  { o with fix := o.fix.map fun target => { target with node := new target.node } }

def Directive.renumber (new : NodeId → NodeId) (d : Directive) : Directive :=
  { d with node := new d.node }

def LintResult.renumber (new : NodeId → NodeId) (r : LintResult) : LintResult :=
  { r with offenses := r.offenses.map (Offense.renumber new) }

variable {new : NodeId → NodeId}

namespace Offense

theorem renumber_of_fix_none {o : Offense} (h : o.fix = none) : o.renumber new = o := by
  obtain ⟨rule, message, severity, location, fix⟩ := o
  obtain rfl : fix = none := h
  rfl

theorem map_renumber_of_fix_none (new : NodeId → NodeId) {offenses : List Offense}
    (h : ∀ o ∈ offenses, o.fix = none) :
    offenses.map (renumber new) = offenses := by
  conv_rhs => rw [← List.map_id offenses]
  exact List.map_congr_left fun o ho => renumber_of_fix_none (h o ho)

theorem sort_map_renumber (offenses : List Offense) :
    sort (offenses.map (renumber new)) = (sort offenses).map (renumber new) := by
  rw [sort, sort, List.map_mergeSort]
  exact fun _ _ _ _ => rfl

end Offense

/-! ## Directives -/

def Mark.renumber (new : NodeId → NodeId) (m : Mark) : Mark :=
  { m with offense := m.offense.renumber new }

namespace Directive

theorem ofComment?_renumber (new : NodeId → NodeId) (id : NodeId)
    (location : Location) (content : Token) :
    ofComment? (new id) location content = (ofComment? id location content).map (renumber new) := by
  have hlist (l : Location) (here : Position) (list : List Char) :
      ofList (new id) location l here list = (ofList id location l here list).renumber new := by
    simp only [ofList]
    generalize (_ && _) = b
    cases b <;> rfl
  simp only [ofComment?]
  split
  · rw [hlist, Option.map_some]
  · rfl

theorem mark_renumber (d : Directive) (m : Mark) (t : Tally) :
    (d.renumber new).mark (m.renumber new) t = ((d.mark m t).1.renumber new, (d.mark m t).2) := by
  have hscope : ((m.renumber new).offense.isSuppressible &&
      (d.renumber new).inScope (m.renumber new).offense.location) =
      (m.offense.isSuppressible && d.inScope m.offense.location) := rfl
  have hnames : ((d.renumber new).disablesEvery ||
      (d.renumber new).entries.any (·.name == (m.renumber new).offense.rule)) =
      (d.disablesEvery || d.entries.any (·.name == m.offense.rule)) := rfl
  simp only [mark, hscope, hnames]
  split
  · split <;> rfl
  · rfl

theorem sweep_renumber (d : Directive) (marks : List Mark) (t : Tally) :
    (d.renumber new).sweep (marks.map (Mark.renumber new)) t =
      ((d.sweep marks t).1.map (Mark.renumber new), (d.sweep marks t).2) := by
  induction marks generalizing t with
  | nil => rfl
  | cons m rest ih => simp only [List.map_cons, sweep, mark_renumber, ih]

end Directive

namespace Suppressing

def renumber (new : NodeId → NodeId) (s : Suppressing) : Suppressing :=
  { s with marks := s.marks.map (Mark.renumber new) }

theorem start_renumber (raw : List Offense) :
    start (raw.map (Offense.renumber new)) = (start raw).renumber new := by
  simp [start, renumber, Mark.renumber]

theorem step_renumber (c : Context) (s : Suppressing) (d : Directive) :
    step c (s.renumber new) (d.renumber new) = (step c s d).renumber new := by
  have hsweep : (d.renumber new).sweep (s.renumber new).marks (d.renumber new).noHits = _ :=
    Directive.sweep_renumber d s.marks d.noHits
  simp only [step, hsweep]
  rfl

theorem run_renumber (c : Context) (directives : List Directive) (s : Suppressing) :
    (directives.map (Directive.renumber new)).foldl (step c) (s.renumber new) =
      (directives.foldl (step c) s).renumber new := by
  induction directives generalizing s with
  | nil => rfl
  | cons d rest ih => rw [List.map_cons, List.foldl_cons, List.foldl_cons, step_renumber, ih]

theorem kept_renumber (s : Suppressing) :
    (s.renumber new).kept = s.kept.map (Offense.renumber new) := by
  rw [kept, kept, renumber, List.filterMap_map, List.map_filterMap]
  apply List.filterMap_congr
  intro m _
  change (if m.hidden then none else some (m.offense.renumber new)) = _
  split <;> rfl

theorem hiddenCount_renumber (s : Suppressing) : (s.renumber new).hiddenCount = s.hiddenCount := by
  rw [hiddenCount, hiddenCount, renumber, List.countP_map]
  rfl

end Suppressing

theorem suppress_renumber (raw : List Offense) (directives : List Directive) (c : Context) :
    suppress (raw.map (Offense.renumber new)) (directives.map (Directive.renumber new)) c =
      (suppress raw directives c).renumber new := by
  have hmatched : (directives.map (Directive.renumber new)).filter (·.matched) =
      (directives.filter (·.matched)).map (Directive.renumber new) := by
    rw [List.filter_map]
    rfl
  simp only [suppress, hmatched, Suppressing.start_renumber, Suppressing.run_renumber,
    Suppressing.kept_renumber, Suppressing.hiddenCount_renumber, Offense.sort_map_renumber]
  rfl

theorem any_map_of_forall {α β : Type} {f : α → β} {p : β → Bool} {q : α → Bool} {xs : List α}
    (h : ∀ x ∈ xs, p (f x) = q x) : (xs.map f).any p = xs.any q := by
  induction xs with
  | nil => rfl
  | cons x rest ih =>
    rw [List.forall_mem_cons] at h
    rw [List.map_cons, List.any_cons, List.any_cons, h.1, ih h.2]

/-! ## Documents -/

section Documents

variable {d : Document}

theorem Directive.ofNode?_shifted (d : Document) (id : NodeId) (n : Node) :
    ofNode? (d.shiftedId id) (d.shiftedNode n) = (ofNode? id n).map (renumber d.shiftedId) := by
  obtain ⟨location, content⟩ := n
  cases content with
  | erb opening content closing =>
    change (if (Content.erb opening content closing).isErbComment then ofComment? _ _ _ else none) =
      (if (Content.erb opening content closing).isErbComment then ofComment? _ _ _ else none).map _
    rw [ofComment?_renumber]
    split <;> rfl
  | comment opening content closing => exact ofComment?_renumber _ _ _ _
  | _ => rfl

theorem Rules.TagName.checkTag_shifted (d : Document) (x : NodeId) (c : Content) :
    checkTag (d.shiftedId x) (d.shiftedContent c) =
      (checkTag x c).map (Offense.renumber d.shiftedId) := by
  cases c with
  | openTag opening name children closing =>
    change (lowered? name.text).toList.map _ = ((lowered? name.text).toList.map _).map _
    rw [List.map_map]
    rfl
  | closeTag opening name trailing closing =>
    change (lowered? name.text).toList.map _ = ((lowered? name.text).toList.map _).map _
    rw [List.map_map]
    rfl
  | _ => rfl

variable (h : d.Tidy)
include h

theorem Document.Tidy.directives_shifted :
    d.dropBlanks.directives = d.directives.map (Directive.renumber d.shiftedId) := by
  simp only [directives, allVisits, List.filterMap_eq_flatMap_toList]
  apply h.flatMap_visits (fun _ _ => rfl)
  · exact fun _ _ _ _ => rfl
  · intro v _
    change (Directive.ofNode? (d.shiftedId v.id) (d.shiftedNode v.node)).toList = _
    rw [Directive.ofNode?_shifted]
    cases Directive.ofNode? v.id v.node <;> rfl

namespace Rules

theorem TagName.checkOwnTag_shifted {isOwn : Content → Bool}
    (hown : ∀ c, isOwn (d.shiftedContent c) = isOwn c) {x : NodeId} (hx : d.Solid x) :
    checkOwnTag d.dropBlanks isOwn (d.shiftedId x) =
      (checkOwnTag d isOwn x).map (Offense.renumber d.shiftedId) := by
  obtain ⟨n, hget, hblank⟩ := hx
  simp only [checkOwnTag, h.get?_shifted hget hblank, hget, Document.shiftedNode, hown]
  split
  · exact checkTag_shifted d x n.content
  · rfl

theorem TagName.check_shifted :
    check d.dropBlanks = (check d).map (Offense.renumber d.shiftedId) := by
  have hsvg {v : Visit} (hv : d.Meets v) :
      isSvg d.dropBlanks (d.shiftedId v.id) = isSvg d v.id := by
    rw [isSvg, isSvg, h.tagName?_shifted ⟨v.node, hv.here, hv.solid⟩]
  apply h.flatMap_visits (fun v hv => hsvg hv)
  · exact fun _ _ _ _ => rfl
  · intro v hv
    have hsvg := hsvg hv
    have htag := checkTag_shifted d v.id v.node.content
    have hchild := fun c hc hopen => h.solid_child (c := c) hv.here hc hopen
    obtain ⟨id, ⟨location, content⟩, ancestors⟩ := v
    cases content with
    | element first body last isVoid =>
      have hopen (c : Content) : (d.shiftedContent c).isOpenTag = c.isOpenTag := by cases c <;> rfl
      have hclose (c : Content) : (d.shiftedContent c).isCloseTag =
          c.isCloseTag := by cases c <;> rfl
      have hfirst := checkOwnTag_shifted h hopen
        (hchild first (by simp [Node.children, Content.children]) (by simp))
      have hlast : (last.map d.shiftedId).toList.flatMap
            (checkOwnTag d.dropBlanks Content.isCloseTag) =
          (last.toList.flatMap (checkOwnTag d Content.isCloseTag)).map
            (Offense.renumber d.shiftedId) := by
        cases last with
        | none => rfl
        | some last =>
          have hsolid := hchild last (by simp [Node.children, Content.children]) (by simp)
          simpa using checkOwnTag_shifted h hclose hsolid
      change (if isSvg d.dropBlanks (d.shiftedId id) then
          checkOwnTag d.dropBlanks Content.isOpenTag (d.shiftedId first) ++
            (last.map d.shiftedId).toList.flatMap (checkOwnTag d.dropBlanks Content.isCloseTag)
          else []) =
        (if isSvg d id then checkOwnTag d Content.isOpenTag first ++
          last.toList.flatMap (checkOwnTag d Content.isCloseTag) else []).map _
      rw [hsvg, hfirst, hlast]
      split
      · rw [List.map_append]
      · rfl
    | _ => exact htag

namespace QuotedValue

theorem partSource_shifted {x : NodeId} (hx : d.Solid x) :
    partSource d.dropBlanks (d.shiftedId x) = partSource d x := by
  obtain ⟨⟨location, content⟩, hget, hblank⟩ := hx
  rw [partSource, partSource, h.get?_shifted hget hblank, hget]
  cases content <;> rfl

theorem attrName_shifted {x : Option NodeId} (hx : ∀ p ∈ x, d.Solid p) :
    attrName d.dropBlanks (x.map d.shiftedId) = attrName d x := by
  cases x with
  | none => rfl
  | some p =>
    obtain ⟨⟨location, content⟩, hget, hblank⟩ := hx p rfl
    rw [attrName, attrName, Option.map_some, Option.bind_some, Option.bind_some,
      h.get?_shifted hget hblank, hget]
    cases content <;> rfl

theorem check_shifted : check d.dropBlanks = (check d).map (Offense.renumber d.shiftedId) := by
  apply h.flatMap_visits
  · intro v _
    change isAttrValue (d.shiftedContent v.node.content) = isAttrValue v.node.content
    cases v.node.content <;> rfl
  · exact fun _ _ _ _ => rfl
  · intro v hv
    obtain ⟨id, ⟨location, content⟩, ancestors⟩ := v
    have hchild := fun c hc hopen => h.solid_child (c := c) hv.here hc hopen
    cases content with
    | attrValue openQuote children closeQuote =>
      cases openQuote with
      | some quote => rfl
      | none =>
        cases children with
        | nil => rfl
        | cons first rest =>
          have hparts : (((first :: rest).map d.shiftedId).map (partSource d.dropBlanks)) =
              (first :: rest).map (partSource d) := by
            rw [List.map_map]
            exact List.map_congr_left fun c hc => partSource_shifted h (hchild c hc (by simp))
          have hparent : (ancestors.map d.shiftedId).head? = ancestors.head?.map d.shiftedId :=
            List.head?_map
          have hname := attrName_shifted h (x := ancestors.head?) fun p hp =>
            hv.above p (List.mem_of_mem_head? hp)
          change
            [descriptor.fixable (message (attrName d.dropBlanks (ancestors.map d.shiftedId).head?)
            (String.join (((first :: rest).map d.shiftedId).map (partSource d.dropBlanks))))
              location (d.shiftedId id)] = _
          rw [hparts, hparent, hname]
          rfl
    | _ => rfl

end QuotedValue

namespace BooleanAttribute

theorem isErb_shifted {x : NodeId} (hx : d.Solid x) :
    isErb d.dropBlanks (d.shiftedId x) = isErb d x := by
  obtain ⟨⟨location, content⟩, hget, hblank⟩ := hx
  rw [isErb, isErb, h.get?_shifted hget hblank, hget]
  cases content <;> rfl

theorem check_shifted : check d.dropBlanks = (check d).map (Offense.renumber d.shiftedId) := by
  apply h.flatMap_visits
  · intro v _
    change isAttr (d.shiftedContent v.node.content) = isAttr v.node.content
    cases v.node.content <;> rfl
  · exact fun _ _ _ _ => rfl
  · intro v hv
    obtain ⟨id, ⟨location, content⟩, ancestors⟩ := v
    cases content with
    | attr name equals value =>
      cases value with
      | none => rfl
      | some value =>
        obtain ⟨hkids, -, hsolid⟩ := h.children_value (Document.content?_of_get? hv.here)
        have herb : (d.dropBlanks.children (d.shiftedId value)).any (isErb d.dropBlanks) =
            (d.children value).any (isErb d) := by
          rw [hkids]
          exact any_map_of_forall fun c hc => isErb_shifted h (hsolid c hc)
        change (if isBoolean name.text && !(d.dropBlanks.children (d.shiftedId value)).any
          (isErb d.dropBlanks) then
          [descriptor.fixable (message name.text) location (d.shiftedId id)] else []) =
            (if isBoolean name.text && !(d.children value).any (isErb d) then _ else []).map _
        rw [herb]
        split <;> rfl
    | _ => rfl

end BooleanAttribute

namespace UniqueId

theorem literalText?_shifted {ids : List NodeId} (hids : ∀ x ∈ ids, d.Solid x) :
    literalText? d.dropBlanks (ids.map d.shiftedId) = literalText? d ids := by
  induction ids with
  | nil => rfl
  | cons x rest ih =>
    obtain ⟨⟨⟨location, content⟩, hget, hblank⟩, hrest⟩ := List.forall_mem_cons.mp hids
    rw [List.map_cons, literalText?, literalText?, h.get?_shifted hget hblank, hget, ih hrest]
    cases content <;> rfl

theorem idNote?_shifted {x : NodeId} {content : Content} (hx : d.content? x = some content) :
    idNote? d.dropBlanks (d.shiftedContent content) = idNote? d content := by
  cases content with
  | attr name equals value =>
    cases value with
    | none => rfl
    | some value =>
      obtain ⟨hkids, hvalue, hsolid⟩ := h.children_value hx
      simp only [Document.shiftedContent, Content.mapChildren, Option.map_some, idNote?, hkids,
        literalText?_shifted h hsolid, h.location?_shifted hvalue]
  | _ => rfl

theorem check_shifted (notes : List Note) : check d.dropBlanks notes = check d notes := by
  have hids : ((d.dropBlanks.visits fun v => isAttr v.node.content).filterMap fun v =>
      idNote? d.dropBlanks v.node.content) =
      (d.visits fun v => isAttr v.node.content).filterMap fun v => idNote? d v.node.content := by
    simp only [List.filterMap_eq_flatMap_toList]
    rw [← List.map_id (List.flatMap _ (d.visits _))]
    apply h.flatMap_visits
    · intro v _
      change isAttr (d.shiftedContent v.node.content) = isAttr v.node.content
      cases v.node.content <;> rfl
    · exact fun _ _ _ _ => rfl
    · intro v hv
      rw [List.map_id]
      exact congrArg Option.toList (idNote?_shifted h (Document.content?_of_get? hv.here))
  rw [check, check, hids]

end UniqueId

namespace NestedLink

theorem isLinkNode_shifted {x : NodeId} (hx : d.Solid x) :
    isLinkNode d.dropBlanks (d.shiftedId x) = isLinkNode d x := by
  rw [isLinkNode, isLinkNode, h.tagName?_shifted hx]

theorem check_shifted : check d.dropBlanks = check d := by
  rw [← List.map_id (check d)]
  apply h.flatMap_visits (fun _ _ => rfl)
  · exact fun _ _ _ _ => rfl
  · intro v hv
    rw [List.map_id]
    have hself := isLinkNode_shifted h ⟨v.node, hv.here, hv.solid⟩
    have habove : (v.ancestors.map d.shiftedId).any (isLinkNode d.dropBlanks) =
        v.ancestors.any (isLinkNode d) :=
      any_map_of_forall fun a ha => isLinkNode_shifted h (hv.above a ha)
    obtain ⟨id, ⟨location, content⟩, ancestors⟩ := v
    cases content with
    | element first body last isVoid =>
      have hfirst := h.location?_shifted
        (h.solid_child (c := first) hv.here (by simp [Node.children, Content.children]) (by simp))
      change (if isLinkNode d.dropBlanks (d.shiftedId id) &&
        (ancestors.map d.shiftedId).any (isLinkNode d.dropBlanks) then
        (d.dropBlanks.location? (d.shiftedId first)).toList.map _ else []) = _
      rw [hself, habove, hfirst]
      rfl
    | _ => rfl

end NestedLink

end Rules

end Documents

/-! ## Lints -/

/-- What the rule finds in a document, it finds without the blanks. -/
def Rule.IgnoresBlanks (r : Rule) : Prop :=
  ∀ (d : Document), d.Tidy → ∀ (c : Context) (notes : List Note),
    ((ActiveRule.mk r notes).find d.dropBlanks d.dropBlanks.directives c).map (·.1) =
      ((ActiveRule.mk r notes).find d d.directives c).map fun found =>
        found.1.map (Offense.renumber d.shiftedId)

theorem Rule.ignoresBlanks_plain {descriptor : Descriptor} {check : Document → List Offense}
    {fix : NodeId → Edit Bool} (h : ∀ d : Document, d.Tidy →
      check d.dropBlanks = (check d).map (Offense.renumber d.shiftedId)) :
    (Rule.document (.plain descriptor check fix)).IgnoresBlanks :=
  fun d hd _ _ => congrArg Except.ok (h d hd)

theorem Rule.ignoresBlanks_directive {descriptor : Descriptor}
    {check : Directive → Context → List Offense} (hfix : ∀ d c, ∀ o ∈ check d c, o.fix = none)
    (hnode : ∀ new d c, check (d.renumber new) c = check d c) :
    (Rule.directive (.plain descriptor check)).IgnoresBlanks := by
  intro d hd c notes
  simp only [ActiveRule.find, DirectiveRule.checkAll_plain, Except.map, Except.ok.injEq]
  rw [hd.directives_shifted, List.flatMap_map, Offense.map_renumber_of_fix_none _]
  · simp only [hnode]
  · intro o ho
    obtain ⟨directive, -, ho⟩ := List.mem_flatMap.mp ho
    exact hfix _ _ o ho

theorem Rules.check_renumber {r : DirectiveRule} (h : .directive r ∈ directiveRules)
    (new : NodeId → NodeId) (d : Directive) (c : Context) (notes : List Note) :
    r.check (d.renumber new) c notes = r.check d c notes := by
  simp only [directiveRules, List.mem_cons, List.not_mem_nil, or_false] at h
  rcases h with h | h | h | h | h
  all_goals
    obtain rfl := Rule.directive.inj h
    rfl

theorem Rules.ignoresBlanks_of_mem {r : Rule} (h : r ∈ Preset.recommended.rules) :
    r.IgnoresBlanks := by
  rcases List.mem_append.mp h with h | h
  · obtain ⟨descriptor, check, rfl, hfix⟩ := fix_of_directiveRules h
    refine Rule.ignoresBlanks_directive hfix fun new d c => ?_
    have hsame := check_renumber h new d c []
    exact congrArg Prod.fst (Except.ok.inj hsame)
  · simp only [documentRules, List.mem_cons, List.not_mem_nil, or_false] at h
    rcases h with rfl | rfl | rfl | rfl | rfl
    · exact Rule.ignoresBlanks_plain fun _ hd => TagName.check_shifted hd
    · exact Rule.ignoresBlanks_plain fun _ hd => QuotedValue.check_shifted hd
    · exact Rule.ignoresBlanks_plain fun _ hd => BooleanAttribute.check_shifted hd
    · intro d hd c notes
      have hfound : UniqueId.check d.dropBlanks [] = UniqueId.check d [] :=
        UniqueId.check_shifted hd []
      have hfix : (UniqueId.check d []).1.map (Offense.renumber d.shiftedId) =
          (UniqueId.check d []).1 :=
        Offense.map_renumber_of_fix_none _ fun o ho => UniqueId.fix_of_mem_compare ho
      change Except.ok (UniqueId.check d.dropBlanks []).1 =
        Except.ok ((UniqueId.check d []).1.map (Offense.renumber d.shiftedId))
      rw [hfound, hfix]
    · refine Rule.ignoresBlanks_plain fun d hd => ?_
      rw [NestedLink.check_shifted hd, Offense.map_renumber_of_fix_none _ fun o ho =>
        NestedLink.fix_of_mem_check ho]

theorem ActiveRule.offenses_run_dropBlanks {a : ActiveRule} (h : a.rule.IgnoresBlanks)
    {d : Document} (hd : d.Tidy) (c : Context) :
    (a.run d.dropBlanks d.dropBlanks.directives c).offenses =
      (a.run d d.directives c).offenses.map (Offense.renumber d.shiftedId) := by
  have hfind := h d hd c a.notes
  unfold run
  simp only
  cases hf' : a.find d.dropBlanks d.dropBlanks.directives c <;>
    cases hf : a.find d d.directives c <;>
    simp only [hf, hf', Except.map, Except.ok.injEq, Except.error.injEq, reduceCtorEq] at hfind ⊢
  · rw [hfind]
    rfl
  · rw [hfind]
    cases c.severity? a.rule.name with
    | none => rfl
    | some severity =>
      simp only [List.map_map]
      rfl

theorem Linter.lint_dropBlanks {l : Linter} (hl : ∀ a ∈ l.rules, a.rule.IgnoresBlanks)
    {d : Document} (hd : d.Tidy) :
    (l.lint d.dropBlanks).value = (l.lint d).value.renumber d.shiftedId := by
  have hraw : l.raw d.dropBlanks = (l.raw d).map (Offense.renumber d.shiftedId) := by
    rw [raw, raw, List.map_flatMap]
    exact List.flatMap_congr fun a ha => ActiveRule.offenses_run_dropBlanks (hl a ha) hd l.context
  rw [value_lint, value_lint, hraw, hd.directives_shifted, suppress_renumber]

/-- Whether blanks are kept decides only whether the tree has them, not what is refused or
reported. -/
theorem parse_dropBlanks (source : String) {l : Linter}
    (hl : ∀ a ∈ l.rules, a.rule ∈ Rules.Preset.recommended.rules) :
    Document.parse source false = (Document.parse source true).map Document.dropBlanks ∧
      ∀ d, Document.parse source true = .ok d →
        (l.lint d.dropBlanks).value = (l.lint d).value.renumber d.shiftedId := by
  constructor
  · unfold Document.parse
    cases readPieces [] source.toList with
    | error e => rfl
    | ok ps => exact congrArg Except.ok (Document.ofPieces_false ps)
  · intro d hd
    obtain ⟨ps, rfl, -⟩ := exists_pieces_of_parse hd
    exact Linter.lint_dropBlanks (fun a ha => Rules.ignoresBlanks_of_mem (hl a ha))
      (Document.tidy_ofPieces ps)

/-- A tag with two blanks, whose name is to be mended before and after they are dropped. -/
theorem parse_dropBlanks_spaced_tag :
    let l : Linter := ⟨[{ rule := Rules.tagName }, { rule := Rules.uniqueId }], {}, 1, true⟩
    ∃ d, Document.parse "<A id=x />" true = .ok d ∧ d.dropBlanks.slots.size + 2 = d.slots.size ∧
      (l.raw d).map (·.fix) = [some ⟨5, .safe⟩] ∧ d.shiftedId 5 = 3 ∧
      Document.parse "<A id=x />" false = .ok d.dropBlanks ∧
      (l.lint d.dropBlanks).value = (l.lint d).value.renumber d.shiftedId := by
  intro l
  have hok : (Document.parse "<A id=x />" true).toOption.any (fun d =>
      decide (d.dropBlanks.slots.size + 2 = d.slots.size) &&
        decide ((l.raw d).map (·.fix) = [some ⟨5, .safe⟩]) &&
        decide (d.shiftedId 5 = 3)) = true := by
    decide +kernel
  obtain ⟨d, hd, hfacts⟩ := exists_ok_of_any hok
  simp only [Bool.and_eq_true, decide_eq_true_eq] at hfacts
  have hl : ∀ a ∈ l.rules, a.rule ∈ Rules.Preset.recommended.rules := by
    simp [l, Rules.Preset.rules, Rules.documentRules]
  obtain ⟨hparse, hlint⟩ := parse_dropBlanks "<A id=x />" hl
  rw [hd] at hparse
  exact ⟨d, hd, hfacts.1.1, hfacts.1.2, hfacts.2, hparse, hlint d hd⟩

end TemplateLint
