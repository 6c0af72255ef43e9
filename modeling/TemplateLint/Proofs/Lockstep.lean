import TemplateLint.Proofs.Growth
import TemplateLint.Proofs.Mending

/-!
# Two layouts in step

Markup with other names and quotes is laid out as before: node by node under the same ids, on the
same lines. Main statement: `alike_ofPieces`.
-/

namespace TemplateLint

open Markup Text Rules.QuotedValue

/-! ## Lines -/

theorem Position.line_advance (p : Position) (text : List Char) :
    (p.advance text).line = p.line + text.count '\n' := by
  induction text generalizing p with
  | nil => rfl
  | cons c rest ih =>
    rw [advance_cons, ih, next, List.count_cons]
    split <;> simp_all
    omega

/-- The locations start on one line and stop on one line. -/
structure Location.SameLines (a b : Location) : Prop where
  start : b.start.line = a.start.line
  stop : b.stop.line = a.stop.line

theorem count_map_toLower (name : List Char) :
    (name.map Char.toLower).count '\n' = name.count '\n' := by
  induction name with
  | nil => rfl
  | cons c rest ih =>
    rw [List.map_cons, List.count_cons, List.count_cons, ih, toLower_beq (by decide)]

theorem Markup.RestyledName.count {name name' : List Char}
    (h : RestyledName name name') (hp : IsPlain name) :
    name'.count '\n' = name.count '\n' := by
  rcases h with rfl | rfl
  · rfl
  · rw [hp]
    exact count_map_toLower name

theorem count_escapeQuotes (text : List Char) :
    (escapeQuotes text).count '\n' = text.count '\n' := by
  induction text with
  | nil => rfl
  | cons c rest ih =>
    rw [escapeQuotes_cons, List.count_append, List.count_cons, ih]
    split
    · rename_i hc
      simp [hc]
    · simp [List.count_singleton, Nat.add_comm]

/-! ## Nodes -/

/-- The contents are of one kind with the same children; what directives and names are read from is
the same. -/
inductive Content.Alike : Content → Content → Prop where
  | document (children : List NodeId) : Alike (.document children) (.document children)
  | element (first : NodeId) (body : List NodeId) (last : Option NodeId) (isVoid : Bool) :
      Alike (.element first body last isVoid) (.element first body last isVoid)
  | openTag {opening opening' name name' closing closing' : Token} (children : List NodeId)
      (hname : asciiLower name'.chars = asciiLower name.chars)
      (hline : name'.location.start.line = name.location.start.line) :
      Alike (.openTag opening name children closing) (.openTag opening' name' children closing')
  | closeTag {opening opening' name name' closing closing' : Token}
      {trailing trailing' : Option Token}
      (hline : name'.location.start.line = name.location.start.line) :
      Alike (.closeTag opening name trailing closing) (.closeTag opening' name' trailing' closing')
  | attr {name name' : Token} {equals equals' : Option Token} (value : Option NodeId) :
      Alike (.attr name equals value) (.attr name' equals' value)
  | attrValue {openQuote openQuote' closeQuote closeQuote' : Option Token}
      (children : List NodeId) :
      Alike (.attrValue openQuote children closeQuote) (.attrValue openQuote' children closeQuote')
  | literal {content content' : Token} : Alike (.literal content) (.literal content')
  | text {content content' : Token} : Alike (.text content) (.text content')
  | whitespace {content content' : Token} : Alike (.whitespace content) (.whitespace content')
  | erb {opening opening' content content' closing closing' : Token}
      (hopening : opening'.text = opening.text) (hcontent : content'.text = content.text) :
      Alike (.erb opening content closing) (.erb opening' content' closing')
  | comment {opening opening' content content' closing closing' : Token}
      (hcontent : content'.text = content.text) :
      Alike (.comment opening content closing) (.comment opening' content' closing')
  | doctype {opening opening' content content' closing closing' : Token} :
      Alike (.doctype opening content closing) (.doctype opening' content' closing')

theorem Content.Alike.isOpenTag {c c' : Content} (h : c.Alike c') : c'.isOpenTag = c.isOpenTag := by
  cases h <;> rfl

theorem Content.Alike.isCloseTag {c c' : Content} (h : c.Alike c') :
    c'.isCloseTag = c.isCloseTag := by
  cases h <;> rfl

theorem Content.Alike.children {c c' : Content} (h : c.Alike c') : c'.children = c.children := by
  cases h <;> rfl

structure Node.Alike (n n' : Node) : Prop where
  lines : n.location.SameLines n'.location
  content : n.content.Alike n'.content

/-- The documents have the same nodes up to style. -/
structure Document.Alike (d d' : Document) : Prop where
  root : d'.root = d.root
  size : d'.slots.size = d.slots.size
  nodes : ∀ x, Option.Rel Node.Alike (d.get? x) (d'.get? x)

namespace Document.Alike

variable {d d' : Document} {x : NodeId}

theorem get?_none (h : d.Alike d') (hx : d.get? x = none) : d'.get? x = none := by
  have hrel := h.nodes x
  rw [hx] at hrel
  generalize d'.get? x = there at hrel
  cases hrel with
  | none => rfl

theorem get?_some (h : d.Alike d') {n : Node} (hx : d.get? x = some n) :
    ∃ n', d'.get? x = some n' ∧ n.Alike n' := by
  have hrel := h.nodes x
  rw [hx] at hrel
  generalize d'.get? x = there at hrel
  cases hrel with
  | some hn => exact ⟨_, rfl, hn⟩

theorem node (h : d.Alike d') {n n' : Node} (hx : d.get? x = some n) (hx' : d'.get? x = some n') :
    n.Alike n' := by
  obtain ⟨m, hm, hn⟩ := h.get?_some hx
  rw [hx'] at hm
  cases hm
  exact hn

end Document.Alike

/-! ## Drafts -/

structure OpenElement.Alike (e e' : OpenElement) : Prop where
  name : e'.name = e.name
  openTag : e'.openTag = e.openTag
  line : e'.start.line = e.start.line
  body : e'.body = e.body

structure Draft.Paired (s s' : Draft) : Prop where
  line : s'.here.line = s.here.line
  nodes : (s.view 0).Alike (s'.view 0)
  openElements : List.Forall₂ OpenElement.Alike s.openElements s'.openElements
  top : s'.top = s.top

theorem Draft.paired_empty : Draft.empty.Paired Draft.empty := by
  refine ⟨rfl, ⟨rfl, rfl, fun x => ?_⟩, .nil, rfl⟩
  simp [Document.get?, view, empty]

theorem Draft.Paired.push {s s' : Draft} (h : s.Paired s') {location location' : Location}
    {content content' : Content} (hlines : location.SameLines location')
    (hcontent : content.Alike content') :
    (s'.push location' content').1 = (s.push location content).1 ∧
      (s.push location content).2.Paired (s'.push location' content').2 := by
  have hsize : s'.slots.size = s.slots.size := h.nodes.size
  refine ⟨hsize, h.line, ⟨rfl, ?_, ?_⟩, h.openElements, h.top⟩
  · exact (s'.size_push _ _).trans ((congrArg (· + 1) hsize).trans (s.size_push _ _).symm)
  · intro x
    have hgrows := Document.grows_push 0 s location content
    have hgrows' := Document.grows_push 0 s' location' content'
    by_cases hx : x = s.slots.size
    · subst hx
      have hnew : ((s'.push location' content').2.view 0).get? s.slots.size =
          some ⟨location', content'⟩ := by
        rw [← hsize]
        exact hgrows'.get?_new
      rw [show ((s.push location content).2.view 0).get? s.slots.size =
        _ from hgrows.get?_new, hnew]
      exact .some ⟨hlines, hcontent⟩
    · rw [hgrows.get?_old hx, hgrows'.get?_old (by rw [h.nodes.size]; exact hx)]
      exact h.nodes.nodes x

/-! ## Steps -/

/-- From drafts in step, the steps come to results in `R` and to drafts in step. -/
def InStep {α β : Type} (R : α → β → Prop) (m : Layout α) (m' : Layout β) : Prop :=
  ∀ s s', s.Paired s' → R (m s).1 (m' s').1 ∧ (m s).2.Paired (m' s').2

namespace Layout

variable {α β γ δ : Type} {R : α → β → Prop} {S : γ → δ → Prop}

theorem inStep_bind {m : Layout α} {m' : Layout β} {f : α → Layout γ}
    {f' : β → Layout δ} (h : InStep R m m') (hf : ∀ a b, R a b → InStep S (f a) (f' b)) :
    InStep S (m >>= f) (m' >>= f') := by
  intro s s' hs
  obtain ⟨hr, hs'⟩ := h s s' hs
  exact hf _ _ hr _ _ hs'

theorem inStep_pure {a : α} {b : β} (h : R a b) :
    InStep R (pure a : Layout α) (pure b : Layout β) :=
  fun _ _ hs => ⟨h, hs⟩

theorem inStep_here : InStep (fun p p' => p'.line = p.line) here here := fun _ _ hs => ⟨hs.line, hs⟩

theorem inStep_token {text text' : List Char} (h : text'.count '\n' = text.count '\n') :
    InStep (fun t t' => t.chars = text ∧ t'.chars = text' ∧
      t.location.SameLines t'.location) (token text)
      (token text') := by
  intro s s' hs
  have hstop : (s'.here.advance text').line = (s.here.advance text).line := by
    rw [Position.line_advance, Position.line_advance, hs.line, h]
  exact ⟨⟨by simp [token, Token.chars], by simp [token, Token.chars], hs.line, hstop⟩,
    hstop, hs.nodes, hs.openElements, hs.top⟩

theorem inStep_node {start start' : Position} {content content' : Content}
    (hline : start'.line = start.line) (hcontent : content.Alike content') :
    InStep (fun id id' => id' = id) (node start content) (node start' content') :=
  fun _ _ hs => hs.push ⟨hline, hs.line⟩ hcontent

/-! ## Tags and their parts -/

theorem inStep_erb (e : Erb) : InStep (fun id id' => id' = id) (erb e) (erb e) := by
  refine inStep_bind inStep_here fun start start' hstart => ?_
  refine inStep_bind (inStep_token rfl) fun opening opening' hopening => ?_
  refine inStep_bind (inStep_token rfl) fun content content' hcontent => ?_
  refine inStep_bind (inStep_token rfl) fun closing closing' _ => ?_
  apply inStep_node hstart
  have htext {t t' : Token} (h : t.chars = t'.chars) : t'.text = t.text :=
    (String.toList_inj.mp h).symm
  exact .erb (htext (hopening.1.trans hopening.2.1.symm))
    (htext (hcontent.1.trans hcontent.2.1.symm))

theorem inStep_valuePart {part part' : ValuePart} (h : part' = part ∨ part' = part.escaped) :
    InStep (fun id id' => id' = id) (valuePart part) (valuePart part') := by
  cases part with
  | erb e =>
    obtain rfl : part' = .erb e := h.elim id id
    exact inStep_erb e
  | literal text =>
    obtain ⟨text', rfl, hcount⟩ : ∃ text', part' = .literal text' ∧
        text'.count '\n' = text.count '\n' := by
      rcases h with rfl | rfl
      · exact ⟨text, rfl, rfl⟩
      · exact ⟨_, rfl, count_escapeQuotes text⟩
    refine inStep_bind inStep_here fun start start' hstart => ?_
    refine inStep_bind (inStep_token hcount) fun content content' _ => ?_
    exact inStep_node hstart .literal

theorem inStep_valueParts {parts parts' : List ValuePart}
    (h : List.Forall₂ (fun part part' => part' = part ∨ part' = part.escaped) parts parts') :
    InStep (fun ids ids' => ids' = ids) (valueParts parts) (valueParts parts') := by
  induction h with
  | nil => exact inStep_pure rfl
  | cons hpart _ ih =>
    refine inStep_bind (inStep_valuePart hpart) fun id id' hid => ?_
    refine inStep_bind ih fun ids ids' hids => ?_
    exact inStep_pure (by rw [hid, hids])

theorem inStep_quoteMark (quote quote' : Option Quote) :
    InStep (fun _ _ => True) (quoteMark quote) (quoteMark quote') := by
  have hline (quote : Option Quote) (s : Draft) : ∃ p,
      (quoteMark quote s).2 = { s with here := p } ∧
      p.line = s.here.line := by
    cases quote with
    | none => exact ⟨s.here, rfl, rfl⟩
    | some quote =>
      refine ⟨s.here.advance [quote.char], rfl, ?_⟩
      rw [Position.line_advance]
      cases quote <;> rfl
  intro s s' hs
  obtain ⟨p, hp, hpline⟩ := hline quote s
  obtain ⟨p', hp', hpline'⟩ := hline quote' s'
  rw [hp, hp']
  exact ⟨trivial, hpline'.trans (hs.line.trans hpline.symm), hs.nodes, hs.openElements, hs.top⟩

theorem inStep_value {v v' : Value} (h : v.Restyled v') :
    InStep (fun id id' => id' = id) (value v) (value v') := by
  have hparts : List.Forall₂ (fun part part' => part' = part ∨ part' = part.escaped)
      v.parts v'.parts := by
    have hsame (parts : List ValuePart) :
        List.Forall₂ (fun part part' => part' = part ∨
          part' = ValuePart.escaped part) parts parts :=
      List.forall₂_same.mpr fun _ _ => Or.inl rfl
    rcases h with rfl | ⟨-, rfl⟩
    · exact hsame _
    · unfold Value.quoted
      simp only
      split
      · split
        · rw [List.forall₂_map_right_iff]
          exact List.forall₂_same.mpr fun _ _ => Or.inr rfl
        · exact hsame _
      · exact hsame _
  refine inStep_bind inStep_here fun start start' hstart => ?_
  refine inStep_bind (inStep_quoteMark _ _) fun openQuote openQuote' _ => ?_
  refine inStep_bind (inStep_valueParts hparts) fun children children' hchildren => ?_
  refine inStep_bind (inStep_quoteMark _ _) fun closeQuote closeQuote' _ => ?_
  subst hchildren
  exact inStep_node hstart (.attrValue _)

theorem inStep_attr (name : List Char) {value value' : Option Value}
    (h : Option.Rel Value.Restyled value value') :
    InStep (fun id id' => id' = id) (attr ⟨name, value⟩) (attr ⟨name, value'⟩) := by
  refine inStep_bind inStep_here fun start start' hstart => ?_
  refine inStep_bind (inStep_token rfl) fun _ _ _ => ?_
  cases h with
  | none => exact inStep_node hstart (.attr _)
  | some hv =>
    refine inStep_bind (inStep_token rfl) fun equals equals' _ => ?_
    refine inStep_bind (inStep_value hv) fun id id' hid => ?_
    subst hid
    exact inStep_node hstart (.attr _)

theorem inStep_tagPart (keep : Bool) {part part' : TagPart} (h : part.Restyled part') :
    InStep (fun ids ids' => ids' = ids) (tagPart keep part) (tagPart keep part') := by
  cases h with
  | value name hv =>
    refine inStep_bind (inStep_attr name (.some hv)) fun id id' hid => ?_
    exact inStep_pure (by rw [hid])
  | same =>
    cases part with
    | blank text =>
      refine inStep_bind inStep_here fun start start' hstart => ?_
      refine inStep_bind (inStep_token rfl) fun content content' _ => ?_
      split
      · refine inStep_bind (inStep_node hstart .whitespace) fun id id' hid => ?_
        exact inStep_pure (by rw [hid])
      · exact inStep_pure rfl
    | erb e =>
      refine inStep_bind (inStep_erb e) fun id id' hid => ?_
      exact inStep_pure (by rw [hid])
    | attr a =>
      have hvalue : Option.Rel Value.Restyled a.value a.value := by
        cases a.value with
        | none => exact .none
        | some v => exact .some (Or.inl rfl)
      refine inStep_bind (inStep_attr a.name hvalue) fun id id' hid => ?_
      exact inStep_pure (by rw [hid])

theorem inStep_tagParts (keep : Bool) {parts parts' : List TagPart}
    (h : List.Forall₂ TagPart.Restyled parts parts') :
    InStep (fun ids ids' => ids' = ids) (tagParts keep parts) (tagParts keep parts') := by
  induction h with
  | nil => exact inStep_pure rfl
  | cons hpart _ ih =>
    refine inStep_bind (inStep_tagPart keep hpart) fun ids ids' hids => ?_
    refine inStep_bind ih fun more more' hmore => ?_
    exact inStep_pure (by rw [hids, hmore])

theorem inStep_openTag (keep : Bool) {t t' : OpenTag} (h : t.Restyled t') (hp : IsPlain t.name) :
    InStep (fun id id' => id' = id) (openTag keep t) (openTag keep t') := by
  have hclosing : t'.closing = t.closing := by rw [OpenTag.closing, OpenTag.closing, h.selfClosing]
  refine inStep_bind inStep_here fun start start' hstart => ?_
  refine inStep_bind (inStep_token rfl) fun opening opening' _ => ?_
  refine inStep_bind (inStep_token (h.name.count hp)) fun name name' hname => ?_
  refine inStep_bind (inStep_tagParts keep h.parts) fun children children' hchildren => ?_
  refine inStep_bind (inStep_token (by rw [hclosing])) fun closing closing' _ => ?_
  subst hchildren
  obtain ⟨hchars, hchars', hlines⟩ := hname
  refine inStep_node hstart (.openTag _ ?_ hlines.start)
  rw [hchars, hchars', h.name.asciiLower hp]

theorem inStep_closeTag {t t' : CloseTag} (h : t.Restyled t') (hp : IsPlain t.name) :
    InStep (fun id id' => id' = id) (closeTag t) (closeTag t') := by
  refine inStep_bind inStep_here fun start start' hstart => ?_
  refine inStep_bind (inStep_token rfl) fun opening opening' _ => ?_
  refine inStep_bind (inStep_token (h.name.count hp)) fun name name' hname => ?_
  refine inStep_bind (inStep_token (by rw [h.trailing])) fun trailing trailing' _ => ?_
  refine inStep_bind (inStep_token rfl) fun closing closing' _ => ?_
  exact inStep_node hstart (.closeTag hname.2.2.start)

/-! ## Elements -/

theorem inStep_attach (id : NodeId) : InStep (fun _ _ => True) (attach id) (attach id) := by
  intro s s' hs
  refine ⟨trivial, ?_⟩
  have hopen := hs.openElements
  change (s.attach id).Paired (s'.attach id)
  unfold Draft.attach
  generalize s.openElements = open_ at hopen
  generalize s'.openElements = open' at hopen
  cases hopen with
  | nil => exact ⟨hs.line, hs.nodes, .nil, by rw [hs.top]⟩
  | cons he hrest =>
    exact ⟨hs.line, hs.nodes, .cons ⟨he.name, he.openTag, he.line, by rw [he.body]⟩ hrest, hs.top⟩

theorem inStep_beginElement {t t' : OpenTag} (h : t.Restyled t') (hp : IsPlain t.name)
    {start start' : Position} (hstart : start'.line = start.line) (tag : NodeId) :
    InStep (fun _ _ => True) (beginElement t start tag) (beginElement t' start' tag) := by
  unfold beginElement
  rw [h.opens hp, h.lowerName hp]
  split
  · intro s s' hs
    exact ⟨trivial, hs.line, hs.nodes, .cons ⟨rfl, rfl, hstart, rfl⟩ hs.openElements, hs.top⟩
  · rw [OpenTag.isVoid, OpenTag.isVoid, h.lowerName hp]
    refine inStep_bind (inStep_node hstart (.element _ _ _ _)) fun id id' hid => ?_
    subst hid
    exact inStep_attach _

theorem inStep_endUnclosed {e e' : OpenElement} (h : e.Alike e') {stop stop' : Position}
    (hstop : stop'.line = stop.line) :
    InStep (fun id id' => id' = id) (endUnclosed e stop) (endUnclosed e' stop') := by
  intro s s' hs
  have hcontent : Content.Alike (.element e.openTag e.body.toList none false)
      (.element e'.openTag e'.body.toList none false) := by
    rw [h.openTag, h.body]
    exact .element _ _ _ _
  exact hs.push ⟨h.line, hstop⟩ hcontent

theorem inStep_endElements (name : List Char) (tag : NodeId) {before before' : Position}
    (hbefore : before'.line = before.line) (inner : Array NodeId) {open_ open' : List OpenElement}
    (h : List.Forall₂ OpenElement.Alike open_ open') :
    InStep (fun _ _ => True) (endElements name tag before inner open_)
      (endElements name tag before' inner open') := by
  induction h generalizing inner with
  | nil =>
    intro s s' hs
    exact ⟨trivial, hs.line, hs.nodes, .nil, by simp [endElements, hs.top]⟩
  | @cons e e' outer outer' he hrest ih =>
    have hbody : OpenElement.Alike { e with body := e.body ++ inner }
        { e' with body := e'.body ++ inner } :=
      ⟨he.name, he.openTag, he.line, by rw [he.body]⟩
    unfold endElements
    simp only [he.name]
    split
    · rw [he.openTag, he.body]
      refine inStep_bind (inStep_node he.line (.element _ _ _ _)) fun id id' hid => ?_
      subst hid
      refine inStep_bind (R := fun _ _ => True) ?_ fun _ _ _ => inStep_attach _
      intro s s' hs
      exact ⟨trivial, hs.line, hs.nodes, hrest, hs.top⟩
    · refine inStep_bind (inStep_endUnclosed hbody hbefore) fun id id' hid => ?_
      subst hid
      exact ih _

theorem any_name_congr {open_ open' : List OpenElement}
    (h : List.Forall₂ OpenElement.Alike open_ open') (name : List Char) :
    open'.any (·.name == name) = open_.any (·.name == name) := by
  induction h with
  | nil => rfl
  | cons he _ ih => rw [List.any_cons, List.any_cons, ih, he.name]

theorem inStep_endByTag {t t' : CloseTag} (h : t.Restyled t') (hp : IsPlain t.name)
    {start start' : Position} (hstart : start'.line = start.line) (tag : NodeId) :
    InStep (fun _ _ => True) (endByTag t start tag) (endByTag t' start' tag) := by
  intro s s' hs
  have hrun (t : CloseTag) (start : Position) (s : Draft) : endByTag t start tag s =
      (if s.openElements.any (·.name == t.lowerName)
        then endElements t.lowerName tag start #[] s.openElements
        else attach tag) s := rfl
  rw [hrun, hrun, any_name_congr hs.openElements, h.lowerName hp]
  split
  · exact inStep_endElements _ tag hstart #[] hs.openElements s s' hs
  · exact inStep_attach tag s s' hs

theorem inStep_endAll (inner : Array NodeId) {open_ open' : List OpenElement}
    (h : List.Forall₂ OpenElement.Alike open_ open') :
    InStep (fun _ _ => True) (endAll inner open_) (endAll inner open') := by
  induction h generalizing inner with
  | nil =>
    intro s s' hs
    exact ⟨trivial, hs.line, hs.nodes, .nil, by simp [endAll, hs.top]⟩
  | @cons e e' outer outer' he hrest ih =>
    have hbody : OpenElement.Alike { e with body := e.body ++ inner }
        { e' with body := e'.body ++ inner } :=
      ⟨he.name, he.openTag, he.line, by rw [he.body]⟩
    refine inStep_bind inStep_here fun stop stop' hstop => ?_
    refine inStep_bind (inStep_endUnclosed hbody hstop) fun id id' hid => ?_
    subst hid
    exact ih _

/-! ## Pieces -/

theorem inStep_threeParts (opening content closing : List Char)
    {make : Token → Token → Token → Content}
    (hmake : ∀ t u v t' u' v' : Token, u'.text = u.text → (make t u v).Alike (make t' u' v')) :
    InStep (fun _ _ => True) (threeParts opening content closing make)
      (threeParts opening content closing make) := by
  refine inStep_bind inStep_here fun start start' hstart => ?_
  refine inStep_bind (inStep_token rfl) fun first first' _ => ?_
  refine inStep_bind (inStep_token rfl) fun middle middle' hmiddle => ?_
  refine inStep_bind (inStep_token rfl) fun last last' _ => ?_
  have htext : middle'.text = middle.text := String.toList_inj.mp (hmiddle.2.1.trans hmiddle.1.symm)
  refine inStep_bind (inStep_node hstart (hmake _ _ _ _ _ _ htext)) fun id id' hid => ?_
  subst hid
  exact inStep_attach _

theorem inStep_piece (keep : Bool) {p p' : Piece} (h : p.Restyled p') (hp : p.HasPlainName) :
    InStep (fun _ _ => True) (piece keep p) (piece keep p') := by
  have hopenTag {t t' : OpenTag} (h : t.Restyled t') (hp : IsPlain t.name) :
      InStep (fun _ _ => True) (piece keep (.openTag t)) (piece keep (.openTag t')) := by
    refine inStep_bind inStep_here fun start start' hstart => ?_
    refine inStep_bind (inStep_openTag keep h hp) fun tag tag' htag => ?_
    subst htag
    exact inStep_beginElement h hp hstart _
  have hcloseTag {t t' : CloseTag} (h : t.Restyled t') (hp : IsPlain t.name) :
      InStep (fun _ _ => True) (piece keep (.closeTag t)) (piece keep (.closeTag t')) := by
    refine inStep_bind inStep_here fun start start' hstart => ?_
    refine inStep_bind (inStep_closeTag h hp) fun tag tag' htag => ?_
    subst htag
    exact inStep_endByTag h hp hstart _
  cases h with
  | openTag h => exact hopenTag h hp
  | closeTag h => exact hcloseTag h hp
  | same =>
    cases p with
    | text content =>
      refine inStep_bind inStep_here fun start start' hstart => ?_
      refine inStep_bind (inStep_token rfl) fun content content' _ => ?_
      refine inStep_bind (inStep_node hstart .text) fun id id' hid => ?_
      subst hid
      exact inStep_attach _
    | erb e =>
      refine inStep_bind (inStep_erb e) fun id id' hid => ?_
      subst hid
      exact inStep_attach _
    | comment content => exact inStep_threeParts _ _ _ fun _ _ _ _ _ _ htext => .comment htext
    | doctype content => exact inStep_threeParts _ _ _ fun _ _ _ _ _ _ _ => .doctype
    | openTag t => exact hopenTag ⟨Or.inl rfl, List.forall₂_same.mpr fun _ _ => .same _, rfl⟩ hp
    | closeTag t => exact hcloseTag ⟨Or.inl rfl, rfl⟩ hp

theorem inStep_pieces (keep : Bool) {ps ps' : List Piece} (h : List.Forall₂ Piece.Restyled ps ps')
    (hp : ∀ p ∈ ps, p.HasPlainName) :
    InStep (fun _ _ => True) (pieces keep ps) (pieces keep ps') := by
  induction h with
  | nil => exact inStep_pure trivial
  | cons hpiece _ ih =>
    rw [List.forall_mem_cons] at hp
    exact inStep_bind (inStep_piece keep hpiece hp.1) fun _ _ _ => ih hp.2

theorem inStep_get : InStep Draft.Paired (get : Layout Draft) (get : Layout Draft) :=
  fun _ _ hs => ⟨hs, hs⟩

theorem inStep_document (keep : Bool) {ps ps' : List Piece} (h : List.Forall₂ Piece.Restyled ps ps')
    (hp : ∀ p ∈ ps, p.HasPlainName) :
    InStep (fun id id' => id' = id) (document keep ps) (document keep ps') := by
  refine inStep_bind (inStep_pieces keep h hp) fun _ _ _ => ?_
  refine inStep_bind inStep_get fun s s' hs => ?_
  refine inStep_bind (inStep_endAll #[] hs.openElements) fun _ _ _ => ?_
  refine inStep_bind inStep_get fun s s' hs => ?_
  rw [hs.top]
  exact inStep_node rfl (.document _)

end Layout

/-- Restyled pieces make a document of the same nodes, on the same lines. -/
theorem alike_ofPieces (keep : Bool) {ps ps' : List Piece} (h : List.Forall₂ Piece.Restyled ps ps')
    (hp : ∀ p ∈ ps, p.HasPlainName) : (Document.ofPieces keep ps).Alike (.ofPieces keep ps') := by
  obtain ⟨hroot, hpaired⟩ := Layout.inStep_document keep h hp .empty .empty Draft.paired_empty
  exact ⟨hroot, hpaired.nodes.size, hpaired.nodes.nodes⟩

end TemplateLint
