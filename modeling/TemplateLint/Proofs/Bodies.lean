import Mathlib.Data.List.TakeWhile
import TemplateLint.Proofs.RoundTrip
import TemplateLint.Proofs.Rows

/-!
# Bodies and the text they come from

A body of a parsed document holds, in order, what was read inside one element. Here each of its
nodes is tied to the piece it comes from: which elements were open there, and for a text also where
it starts. Main statement: the top of the document of some pieces is such a body (`body_ofPieces`).
-/

namespace TemplateLint

open Markup

/-! ## The place that is reached -/

namespace Layout

theorem here_erb (e : Erb) (d : Draft) : (erb e d).2.here = d.here.advance e.text := by
  rw [Erb.text, Position.advance_append, Position.advance_append]
  rfl

theorem here_valueParts (parts : List ValuePart) (d : Draft) :
    (valueParts parts d).2.here = d.here.advance (parts.flatMap ValuePart.text) := by
  induction parts generalizing d with
  | nil => rfl
  | cons part rest ih =>
    have hpart : (valuePart part d).2.here = d.here.advance part.text := by
      cases part with
      | literal t => rfl
      | erb e => exact here_erb e d
    rw [List.flatMap_cons, Position.advance_append, ← hpart]
    exact ih _

theorem here_quoteMark (quote : Option Quote) (d : Draft) :
    (quoteMark quote d).2.here = d.here.advance (quote.map Quote.char).toList := by
  cases quote <;> rfl

theorem here_value (v : Value) (d : Draft) : (value v d).2.here = d.here.advance v.text := by
  rw [Value.text, Position.advance_append, Position.advance_append, ← here_quoteMark v.quote d,
    ← here_valueParts v.parts, ← here_quoteMark v.quote]
  rfl

theorem here_attr (a : Attribute) (d : Draft) : (attr a d).2.here = d.here.advance a.text := by
  obtain ⟨name, value⟩ := a
  cases value with
  | none => rfl
  | some v =>
    have htext : Attribute.text ⟨name, some v⟩ = name ++ ['='] ++ v.text := by simp [Attribute.text]
    rw [htext, Position.advance_append, Position.advance_append]
    exact here_value v (token ['='] (token name d).2).2

theorem here_tagPart (keep : Bool) (part : TagPart) (d : Draft) :
    (tagPart keep part d).2.here = d.here.advance part.text := by
  cases part with
  | blank t => cases keep <;> rfl
  | erb e => exact here_erb e d
  | attr a => exact here_attr a d

theorem here_tagParts (keep : Bool) (parts : List TagPart) (d : Draft) :
    (tagParts keep parts d).2.here = d.here.advance (parts.flatMap TagPart.text) := by
  induction parts generalizing d with
  | nil => rfl
  | cons part rest ih =>
    rw [List.flatMap_cons, Position.advance_append, ← here_tagPart keep part d]
    exact ih _

theorem here_openTag (keep : Bool) (t : OpenTag) (d : Draft) :
    (openTag keep t d).2.here = d.here.advance t.text := by
  rw [OpenTag.text, Position.advance_append, Position.advance_append, ← List.singleton_append,
    Position.advance_append]
  exact congrArg (Position.advance · t.closing) (here_tagParts keep t.parts _)

theorem here_closeTag (t : CloseTag) (d : Draft) :
    (closeTag t d).2.here = d.here.advance t.text := by
  have htext : t.text = ['<', '/'] ++ t.name ++ t.trailing ++ ['>'] := rfl
  rw [htext, Position.advance_append, Position.advance_append, Position.advance_append]
  rfl

end Layout

/-! ## Bodies -/

namespace Document

/-- The nodes come from pieces read inside the elements `open_`, with no two texts side by side. -/
inductive Body (d : Document) (keep : Bool) (ps : List Piece) :
    (open_ : Nesting) → List NodeId → (endsInText : Bool) → Prop where
  | nil {open_ : Nesting} : Body d keep ps open_ [] false
  | text {open_ : Nesting} {ids : List NodeId} {x : NodeId} {token : Token}
      {front back : List Piece} (hbody : Body d keep ps open_ ids false)
      (hx : d.content? x = some (.text token)) (hps : ps = front ++ .text token.chars :: back)
      (hopen : front.foldl Nesting.after [] = open_)
      (hstart : token.location.start = Position.start.advance (front.flatMap Piece.source)) :
      Body d keep ps open_ (ids ++ [x]) true
  | piece {open_ : Nesting} {ids : List NodeId} {x : NodeId} {p : Piece} {b : Bool}
      (hbody : Body d keep ps open_ ids b) (hp : p ∈ ps) (hx : d.HoldsPiece x p)
      (htext : ∀ t, p ≠ .text t) (htag : ∀ t, p ≠ .openTag t) :
      Body d keep ps open_ (ids ++ [x]) false
  | element {open_ : Nesting} {ids inside : List NodeId} {x first : NodeId}
      {last : Option NodeId} {isVoid b b' : Bool} {t : OpenTag} (hbody : Body d keep ps open_ ids b)
      (hx : d.content? x = some (.element first inside last isVoid)) (ht : .openTag t ∈ ps)
      (hfirst : d.HoldsPiece first (.openTag (t.shown keep)))
      (hinside : Body d keep ps (t.lowerName :: open_) inside b')
      (hlast : ∀ y ∈ last, ∃ t', .closeTag t' ∈ ps ∧ d.HoldsPiece y (.closeTag t')) :
      Body d keep ps open_ (ids ++ [x]) false

variable {d d' : Document} {keep : Bool} {ps : List Piece} {open_ : Nesting}
  {ids : List NodeId} {b : Bool}

theorem Keeps.body (hk : d.Keeps d') (h : d.Body keep ps open_ ids b) :
    d'.Body keep ps open_ ids b := by
  induction h with
  | nil => exact .nil
  | text _ hx hps hopen hstart ih => exact .text ih (hk _ _ hx) hps hopen hstart
  | piece _ hp hx htext htag ih => exact .piece ih hp (hk.holdsPiece hx) htext htag
  | element _ hx ht hfirst _ hlast ih ihinside =>
    refine .element ih (hk _ _ hx) ht (hk.holdsPiece hfirst) ihinside fun y hy => ?_
    obtain ⟨t', ht', hy⟩ := hlast y hy
    exact ⟨t', ht', hk.holdsPiece hy⟩

/-- The nodes on top and in each open element are bodies; `b` is for the innermost one. -/
def InBodies (d : Document) (keep : Bool) (ps : List Piece) (top : List NodeId) :
    List OpenElement → Bool → Prop
  | [], b => d.Body keep ps [] top b
  | e :: outer, b =>
    (∃ t, .openTag t ∈ ps ∧ d.HoldsPiece e.openTag (.openTag (t.shown keep)) ∧
      t.lowerName = e.name) ∧
      d.Body keep ps (e.name :: openNames outer) e.body.toList b ∧
      ∃ b', InBodies d keep ps top outer b'

theorem InBodies.mono {top : List NodeId} {frames : List OpenElement}
    (h : d.InBodies keep ps top frames b) (hk : d.Keeps d') : d'.InBodies keep ps top frames b := by
  induction frames generalizing b with
  | nil => exact hk.body h
  | cons e outer ih =>
    obtain ⟨⟨t, ht, htag, hname⟩, hbody, b', houter⟩ := h
    exact ⟨⟨t, ht, hk.holdsPiece htag, hname⟩, hk.body hbody, b', ih houter⟩

end Document

open Document

namespace Draft

variable {d d' : Draft} {keep : Bool} {ps front : List Piece} {b b' : Bool} {id : NodeId}

def InBodies (d : Draft) (keep : Bool) (ps : List Piece) (b : Bool) : Prop :=
  (d.view 0).InBodies keep ps d.top.toList d.openElements b

theorem InBodies.spread (h : d.InBodies keep ps b) (he : Extends d d') : d'.InBodies keep ps b := by
  unfold InBodies
  rw [he.openElements, he.top]
  exact Document.InBodies.mono h he.keeps

theorem InBodies.attach (h : d.InBodies keep ps b)
    (hid : ∀ ids, (d.view 0).Body keep ps (openNames d.openElements) ids b →
      (d.view 0).Body keep ps (openNames d.openElements) (ids ++ [id]) b') :
      (d.attach id).InBodies keep ps b' := by
  unfold InBodies at h
  unfold Draft.attach
  split
  · rename_i inner outer hopen
    rw [hopen] at h hid
    obtain ⟨htag, hbody, houter⟩ := h
    refine ⟨htag, ?_, houter⟩
    rw [Array.toList_push]
    exact hid _ hbody
  · rename_i hopen
    rw [hopen] at h hid
    unfold InBodies
    rw [hopen]
    have htop := hid _ h
    rw [← Array.toList_push] at htop
    exact htop

theorem openNames_attach (d : Draft) (id : NodeId) :
    openNames (d.attach id).openElements = openNames d.openElements := by
  unfold Draft.attach
  split
  · rename_i hopen
    rw [hopen]
    rfl
  · rfl

theorem here_attach (d : Draft) (id : NodeId) : (d.attach id).here = d.here := by
  unfold Draft.attach
  split <;> rfl

theorem body_endElement {e : OpenElement} {outer : Nesting}
    {inner : Array NodeId} (location : Location) (last : Option NodeId)
    (htag : ∃ t, .openTag t ∈ ps ∧ (d.view 0).HoldsPiece e.openTag (.openTag (t.shown keep)) ∧
      t.lowerName = e.name)
    (hbody : (d.view 0).Body keep ps (e.name :: outer) (e.body ++ inner).toList b)
    (hlast : ∀ y ∈ last, ∃ t', .closeTag t' ∈ ps ∧ (d.view 0).HoldsPiece y (.closeTag t'))
    {ids : List NodeId} {b' : Bool} :
    let pushed := d.push location (.element e.openTag (e.body ++ inner).toList last false)
    (pushed.2.view 0).Body keep ps outer ids b' →
    (pushed.2.view 0).Body keep ps outer (ids ++ [pushed.1]) false := by
  intro pushed hids
  obtain ⟨t, ht, htag, hname⟩ := htag
  have hkeeps := d.keeps_push location (.element e.openTag (e.body ++ inner).toList last false)
  rw [← hname] at hbody
  refine .element hids (d.content?_push location _) ht (hkeeps.holdsPiece htag)
    (hkeeps.body hbody) fun y hy => ?_
  obtain ⟨t', ht', hy⟩ := hlast y hy
  exact ⟨t', ht', hkeeps.holdsPiece hy⟩

/-- The draft after the pieces `front` of `ps`. -/
structure Reads (d : Draft) (keep : Bool) (ps front : List Piece) : Prop where
  here : d.here = Position.start.advance (front.flatMap Piece.source)
  names : openNames d.openElements = front.foldl Nesting.after []
  bodies : ∃ b, d.InBodies keep ps b ∧ (b = true → ∃ t, front.getLast? = some (.text t))

end Draft

/-! ## Steps of the layout -/

namespace Layout

variable {d : Draft} {keep : Bool} {ps front : List Piece} {b : Bool}

theorem reads_attach {p : Piece} (step : Layout NodeId)
    (hstep : Makes step fun d id => d.HoldsPiece id p)
    (hhere : (step d).2.here = d.here.advance p.source) (hp : p ∈ ps) (htext : ∀ t, p ≠ .text t)
    (htag : ∀ t, p ≠ .openTag t) (hafter : (front.foldl Nesting.after []).after p =
      front.foldl Nesting.after []) (h : d.Reads keep ps front) :
    ((step d).2.attach (step d).1).Reads keep ps (front ++ [p]) := by
  obtain ⟨hplace, hnames, b, hbodies, -⟩ := h
  refine ⟨?_, ?_, false, ?_, by simp⟩
  · rw [Draft.here_attach, hhere, hplace, List.flatMap_append, List.flatMap_singleton,
      Position.advance_append]
  · rw [Draft.openNames_attach, (hstep.spread d).openElements, hnames, List.foldl_append,
      List.foldl_cons, List.foldl_nil, hafter]
  · exact (hbodies.spread (hstep.spread d)).attach fun ids hids =>
      .piece hids hp (hstep.result d) htext htag

theorem reads_text {t : List Char} {back : List Piece} (hps : ps = front ++ .text t :: back)
    (hnext : ∀ u, front.getLast? ≠ some (.text u)) (h : d.Reads keep ps front) :
    (piece keep (.text t) d).2.Reads keep ps (front ++ [.text t]) := by
  obtain ⟨hplace, hnames, b, hbodies, htext⟩ := h
  obtain rfl : b = false := by
    rw [Bool.eq_false_iff]
    intro hb
    obtain ⟨u, hu⟩ := htext hb
    exact hnext u hu
  have hchars := chars_token t d
  have hspread := (makes_text t).spread d
  change (Draft.attach (node d.here (.text (token t d).1) (token t d).2).2
    (node d.here (.text (token t d).1) (token t d).2).1).Reads keep ps _
  refine ⟨?_, ?_, true, ?_, by simp⟩
  · rw [Draft.here_attach, List.flatMap_append, List.flatMap_singleton,
      Position.advance_append, ← hplace]
    rfl
  · rw [Draft.openNames_attach, List.foldl_append, ← hnames]
    rfl
  · refine Draft.InBodies.attach (hbodies.spread hspread) fun ids hids => ?_
    exact .text hids (content?_node _ _ _) (hchars.symm ▸ hps) hnames.symm hplace

theorem reads_openTag {t : OpenTag} (ht : .openTag t ∈ ps) (h : d.Reads keep ps front) :
    (piece keep (.openTag t) d).2.Reads keep ps (front ++ [.openTag t]) := by
  obtain ⟨hplace, hnames, b, hbodies, -⟩ := h
  have htag := makes_shownTag keep t
  have hafter := hbodies.spread (htag.spread d)
  have hsame := (htag.spread d).openElements
  have hhere : (openTag keep t d).2.here =
      Position.start.advance ((front ++ [Piece.openTag t]).flatMap Piece.source) := by
    rw [here_openTag, hplace, List.flatMap_append, List.flatMap_singleton, Position.advance_append]
    rfl
  have hopen : (front ++ [Piece.openTag t]).foldl Nesting.after [] =
      (openNames d.openElements).after (.openTag t) := by
    rw [List.foldl_append, hnames]
    rfl
  change (beginElement t d.here (openTag keep t d).1 (openTag keep t d).2).2.Reads keep ps _
  rw [beginElement]
  split
  · rename_i hopens
    refine ⟨hhere, ?_, false, ⟨⟨t, ht, htag.result d, rfl⟩, .nil, b, hafter⟩, by simp⟩
    rw [hopen, Nesting.after, if_pos hopens, ← hsame]
    rfl
  · rename_i hopens
    have hnode :=
      spread_node d.here (.element (openTag keep t d).1 [] none t.isVoid) (openTag keep t d).2
    refine ⟨?_, ?_, false, ?_, by simp⟩
    · exact (Draft.here_attach _ _).trans hhere
    · rw [hopen, Nesting.after, if_neg hopens, ← hsame]
      exact Draft.openNames_attach _ _
    · refine Draft.InBodies.attach (hafter.spread hnode) fun ids hids => ?_
      exact .element hids (content?_node d.here _ (openTag keep t d).2) ht
        (hnode.keeps.holdsPiece (htag.result d)) .nil
        (by simp)

theorem close_cons_of_ne {name other : List Char} {open_ : Nesting} (hne : other ≠ name)
    (hmem : name ∈ open_) :
    Nesting.close (other :: open_) name = Nesting.close open_ name := by
  have hdrop : (other :: open_).dropWhile (· != name) = open_.dropWhile (· != name) := by simp [hne]
  have hne' : open_.dropWhile (· != name) ≠ [] := by
    rw [ne_eq, List.dropWhile_eq_nil_iff]
    intro hall
    simpa using hall name hmem
  rw [Nesting.close, Nesting.close, hdrop]
  split
  · rfl
  · rename_i hnil
    exact absurd hnil hne'

theorem inBodies_endElements {tag : NodeId} (before : Position) {t : CloseTag}
    (ht : .closeTag t ∈ ps) (frames : List OpenElement) (hname : t.lowerName ∈ openNames frames)
    {d : Draft} (inner : Array NodeId) {b : Bool}
    (h : (d.view 0).InBodies keep ps d.top.toList frames b)
    (hinner : ∀ ids b, (d.view 0).Body keep ps (openNames frames) ids b →
      ∃ b', (d.view 0).Body keep ps (openNames frames) (ids ++ inner.toList) b')
    (htag : (d.view 0).HoldsPiece tag (.closeTag t)) :
    let ended := (endElements t.lowerName tag before inner frames d).2
    ended.here = d.here ∧ openNames ended.openElements = (openNames frames).close t.lowerName ∧
      ended.InBodies keep ps false := by
  -- `inner` are the elements just ended, which may follow in the body of the innermost open one.
  induction frames generalizing d inner b with
  | nil => simp [openNames] at hname
  | cons e outer ih =>
    obtain ⟨hopen, hbody, b', houter⟩ := h
    obtain ⟨b'', hbody⟩ := hinner _ _ hbody
    rw [← Array.toList_append] at hbody
    rw [endElements]
    split
    · rename_i heq
      have hkeeps := d.keeps_push ⟨e.start, d.here⟩
        (.element e.openTag (e.body ++ inner).toList (some tag) false)
      have hlast : ∀ y ∈ some tag, ∃ t', .closeTag t' ∈ ps ∧
          (d.view 0).HoldsPiece y (.closeTag t') := by
        rintro y ⟨⟩
        exact ⟨t, ht, htag⟩
      have houter' :
          ({ (node e.start (.element e.openTag (e.body ++ inner).toList (some tag) false) d).2 with
          openElements := outer } : Draft).InBodies keep ps b' := houter.mono hkeeps
      refine ⟨Draft.here_attach _ _, ?_, ?_⟩
      · have hclose : Nesting.close (openNames (e :: outer)) t.lowerName = openNames outer := by
          simp [Nesting.close, openNames, ← heq]
        exact (Draft.openNames_attach _ _).trans hclose.symm
      · exact houter'.attach fun ids =>
          Draft.body_endElement ⟨e.start, d.here⟩ (some tag) hopen hbody hlast
    · rename_i hne
      change e.name ≠ t.lowerName at hne
      have hkeeps :=
        d.keeps_push ⟨e.start, before⟩ (.element e.openTag (e.body ++ inner).toList none false)
      have hrest : t.lowerName ∈ openNames outer :=
        (List.mem_cons.mp hname).resolve_left (Ne.symm hne)
      have hended := ih hrest (d := (d.push _ _).2) #[_] (houter.mono hkeeps)
        (fun ids b hids =>
          ⟨false, Draft.body_endElement ⟨e.start, before⟩ none hopen hbody (by simp) hids⟩)
        (hkeeps.holdsPiece htag)
      have hclose : Nesting.close (openNames (e :: outer)) t.lowerName =
          Nesting.close (openNames outer) t.lowerName :=
        close_cons_of_ne hne hrest
      rw [hclose]
      exact hended

theorem reads_endByTag {t : CloseTag} (ht : .closeTag t ∈ ps) (h : d.Reads keep ps front) :
    (endByTag t d.here (closeTag t d).1 (closeTag t d).2).2.Reads keep ps
      (front ++ [.closeTag t]) := by
  have htag := makes_closeTag t
  have hsame := (htag.spread d).openElements
  change ((if _ then _ else _ : Layout Unit) _).2.Reads keep ps _
  split
  · rename_i hany
    obtain ⟨hplace, hnames, b, hbodies, -⟩ := h
    have hname : t.lowerName ∈ openNames (closeTag t d).2.openElements := by
      obtain ⟨e, he, hname⟩ := List.any_eq_true.mp hany
      exact List.mem_map.mpr ⟨e, he, by simpa using hname⟩
    obtain ⟨hhere, hclose, hended⟩ :=
      inBodies_endElements d.here ht _ hname #[] (hbodies.spread (htag.spread d))
      (fun ids b hids => ⟨b, by simpa using hids⟩) (htag.result d)
    refine ⟨?_, ?_, false, hended, by simp⟩
    · rw [List.flatMap_append, List.flatMap_singleton, Position.advance_append, ← hplace]
      exact hhere.trans (here_closeTag t d)
    · rw [List.foldl_append, ← hnames, ← hsame]
      exact hclose
  · rename_i hnone
    have hstray : t.lowerName ∉ openNames d.openElements := by
      rw [← hsame]
      intro hmem
      obtain ⟨e, he, hname⟩ := List.mem_map.mp hmem
      exact hnone (List.any_eq_true.mpr ⟨e, he, by simpa using hname⟩)
    refine reads_attach (closeTag t) htag (here_closeTag t d) ht (by simp) (by simp) ?_ h
    rw [← h.names, Nesting.after, Nesting.close, List.dropWhile_eq_nil_iff.mpr]
    intro name hmem
    simpa using ne_of_mem_of_not_mem hmem hstray

theorem reads_piece {p : Piece} {back : List Piece} (hps : ps = front ++ p :: back)
    (hnext : ∀ t, p = .text t → ∀ u, front.getLast? ≠ some (.text u)) (h : d.Reads keep ps front) :
    (piece keep p d).2.Reads keep ps (front ++ [p]) := by
  have hp : p ∈ ps := by simp [hps]
  cases p with
  | text t => exact reads_text hps (hnext t rfl) h
  | erb e =>
    exact reads_attach (p := .erb e) (erb e) (makes_erb e) (here_erb e d) hp
      (by simp) (by simp) rfl h
  | comment t =>
    refine reads_attach (p := .comment t) (threeNode commentOpening t commentClosing .comment)
      ⟨spread_threeNode _ _ _ _, ?_⟩ ?_ hp (by simp) (by simp) rfl h
    · intro d
      exact ⟨_, _, _, content?_node _ _ _, chars_token _ _, chars_token _ _, chars_token _ _⟩
    · rw [Piece.source, Position.advance_append, Position.advance_append]
      rfl
  | doctype t =>
    refine reads_attach (p := .doctype t) (threeNode doctypeOpening t doctypeClosing .doctype)
      ⟨spread_threeNode _ _ _ _, ?_⟩ ?_ hp (by simp) (by simp) rfl h
    · intro d
      exact ⟨_, _, _, content?_node _ _ _, chars_token _ _, chars_token _ _, chars_token _ _⟩
    · rw [Piece.source, Position.advance_append, Position.advance_append]
      rfl
  | openTag t => exact reads_openTag hp h
  | closeTag t => exact reads_endByTag hp h

theorem reads_pieces (more : List Piece) (hps : ps = front ++ more)
    (hnext : ∀ front t back, ps = front ++ .text t :: back → ∀ u, front.getLast? ≠ some (.text u))
    (h : d.Reads keep ps front) : (pieces keep more d).2.Reads keep ps ps := by
  induction more generalizing front d with
  | nil =>
    rw [List.append_nil] at hps
    subst hps
    exact h
  | cons p rest ih =>
    have hstep := reads_piece hps (fun t ht => hnext front t rest (ht ▸ hps)) h
    exact ih (by rw [hps, List.append_assoc]; rfl) hstep

theorem body_endAll (frames : List OpenElement) {d : Draft} (inner : Array NodeId) {b : Bool}
    (h : (d.view 0).InBodies keep ps d.top.toList frames b)
    (hinner : ∀ ids b, (d.view 0).Body keep ps (openNames frames) ids b →
      ∃ b', (d.view 0).Body keep ps (openNames frames) (ids ++ inner.toList) b') :
    ∃ b', ((endAll inner frames d).2.view 0).Body keep ps []
      (endAll inner frames d).2.top.toList b' := by
  induction frames generalizing d inner b with
  | nil =>
    obtain ⟨b', htop⟩ := hinner _ _ h
    rw [← Array.toList_append] at htop
    exact ⟨b', htop⟩
  | cons e outer ih =>
    obtain ⟨hopen, hbody, b', houter⟩ := h
    obtain ⟨b'', hbody⟩ := hinner _ _ hbody
    rw [← Array.toList_append] at hbody
    have hkeeps :=
      d.keeps_push ⟨e.start, d.here⟩ (.element e.openTag (e.body ++ inner).toList none false)
    exact ih (d := (d.push _ _).2) #[_] (houter.mono hkeeps)
      fun ids b hids =>
        ⟨false, Draft.body_endElement ⟨e.start, d.here⟩ none hopen hbody (by simp) hids⟩

end Layout

theorem body_ofPieces (keep : Bool) {ps : List Piece}
    (hnext : ∀ front t back, ps = front ++ .text t :: back → ∀ u, front.getLast? ≠ some (.text u)) :
    ∃ children b, (Document.ofPieces keep ps).content? (Document.ofPieces keep ps).root =
      some (.document children) ∧
      (Document.ofPieces keep ps).Body keep ps [] children b := by
  have hempty : Draft.empty.Reads keep ps [] := ⟨rfl, rfl, false, .nil, by simp⟩
  obtain ⟨-, -, b, hbodies, -⟩ := Layout.reads_pieces ps (List.nil_append ps).symm hnext hempty
  obtain ⟨b', hbody⟩ := Layout.body_endAll _ #[] hbodies fun ids b hids => ⟨b, by simpa using hids⟩
  obtain ⟨hkeeps, hroot⟩ := keeps_ofPieces keep ps
  exact ⟨_, b', hroot, hkeeps.body hbody⟩

end TemplateLint
