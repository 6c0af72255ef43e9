import TemplateLint.Proofs.Layout

/-!
# Elements

Open elements stand in a stack, the innermost first, and each holds the stretches from its open tag
up to the next inner element. Ending an element wraps its stretches in a node. Main statement: the
document of some pieces is one tree, and with its blanks kept it spells them exactly
(`sound_ofPieces`).
-/

namespace TemplateLint

open Markup Stretch

variable {keep : Bool} {root : NodeId}

/-! ## The stack -/

/-- The stretches of a run belong to the nodes on top, then to the open elements, outermost
first. -/
def Framed (keep : Bool) (top : List NodeId) : List OpenElement → List Stretch → Prop
  | [], run => run.map item = top.map .child
  | e :: outer, run => ∃ before own, run = before ++ own ∧
      own.map item = (e.openTag :: e.body.toList).map .child ∧
      (keep = true → e.start = Position.start.advance (spelled before)) ∧
      Framed keep top outer before

/-- The draft holds stretches that spell `text`, and its stack accounts for all of them. -/
def Draft.Steady (keep : Bool) (root : NodeId) (d : Draft) (text : List Char) : Prop :=
  ∃ run, d.Sound keep root run ∧ Framed keep d.top.toList d.openElements run ∧
    (keep = true → spelled run = text)

theorem Draft.steady_empty (keep : Bool) (root : NodeId) : Draft.empty.Steady keep root [] :=
  ⟨[], sound_empty keep root, rfl, fun _ => rfl⟩

theorem Draft.Sound.attach {d : Draft} {run : List Stretch} {id : NodeId} {t text : List Char}
    (h : d.Sound keep root (run ++ [⟨.child id, t⟩]))
    (hframed : Framed keep d.top.toList d.openElements run) (htext : keep = true →
      spelled (run ++ [⟨.child id, t⟩]) = text) : (d.attach id).Steady keep root text := by
  refine ⟨run ++ [⟨.child id, t⟩], ?_, ?_, htext⟩
  · apply h.congr
    · unfold Draft.attach; split <;> rfl
    · intro _; unfold Draft.attach; split <;> rfl
  · unfold Draft.attach
    split
    · rename_i inner outer hopen
      rw [hopen] at hframed
      obtain ⟨before, own, rfl, hown, hstart, hrest⟩ := hframed
      exact ⟨before, own ++ [⟨.child id, t⟩], by simp, by simp [hown], hstart, hrest⟩
    · rename_i hopen
      rw [hopen] at hframed ⊢
      have hrun : run.map item = d.top.toList.map .child := hframed
      simp [Framed, hrun]

theorem Spread.attach {d d' : Draft} {run : List Stretch} {id : NodeId} {t text : List Char}
    (h : Spread keep root d run d' [.child id] t)
    (hframed : Framed keep d.top.toList d.openElements run)
    (htext : keep = true → spelled run = text) : (d'.attach id).Steady keep root (text ++ t) := by
  obtain ⟨u, hsound, hspelled⟩ := h.exists_node
  apply hsound.attach
  · rw [h.openElements, h.top]
    exact hframed
  · intro hkeep
    simp [htext hkeep, hspelled hkeep]

theorem Draft.Sound.endElement {d : Draft} {e : OpenElement} {front own rest after : List Stretch}
    (h : d.Sound keep root (front ++ (own ++ rest) ++ after))
    (inner : Array NodeId) (tag : Option NodeId) (stop : Position)
    (hown : own.map item = (e.openTag :: e.body.toList).map .child)
    (hrest : rest.map item = (inner.toList ++ tag.toList).map .child)
    (hstart : keep = true → e.start = Position.start.advance (spelled front))
    (hstop : keep = true → stop = Position.start.advance (spelled (front ++ (own ++ rest)))) :
    let ended := d.push ⟨e.start, stop⟩ (.element e.openTag (e.body ++ inner).toList tag false)
    ended.2.Sound keep root (front ++ [⟨.child ended.1, spelled (own ++ rest)⟩] ++ after) := by
  -- `rest` are the elements inside `e` that were just ended, and its close tag, if any.
  apply h.push
  · simp [Content.items, hown, hrest]
  · intro hkeep
    rw [hstart hkeep, hstop hkeep]

namespace Layout

theorem steady_attach (step : Layout NodeId) {d : Draft} {text t : List Char}
    (h : d.Steady keep root text) (hstep : LaysNode keep root step t) :
    ((step d).2.attach (step d).1).Steady keep root (text ++ t) := by
  obtain ⟨run, hsound, hframed, htext⟩ := h
  exact (hstep d run hsound).attach hframed htext

/-! ## Beginning and ending elements -/

theorem steady_beginElement {d : Draft} {text : List Char}
    (h : d.Steady keep root text) (t : OpenTag) :
    (beginElement t d.here (openTag keep t d).1 (openTag keep t d).2).2.Steady keep root
      (text ++ t.text) := by
  obtain ⟨run, hsound, hframed, htext⟩ := h
  have htag := lays_openTag t d run hsound
  unfold beginElement
  split
  · obtain ⟨⟨more, hmore, hitems, hspelled⟩, hopen, htop⟩ := htag
    refine ⟨run ++ more, hmore.congr rfl fun _ => rfl, ?_, ?_⟩
    · refine ⟨run, more, rfl, hitems, fun hkeep => (hsound.exact hkeep).2.2, ?_⟩
      simp only [hopen, htop]
      exact hframed
    · intro hkeep
      rw [spelled_append, htext hkeep, hspelled hkeep]
  · have hitems : (Content.element (openTag keep t d).1 [] none t.isVoid).items =
        [.child (openTag keep t d).1] := rfl
    exact (htag.node hsound hitems).attach hframed htext

theorem steady_endElements {name : List Char} {tag : NodeId} {before : Position} {t : List Char}
    (frames : List OpenElement) (hname : ∃ e ∈ frames, e.name = name) {d : Draft}
    {inner : Array NodeId} {run ended : List Stretch}
    (h : d.Sound keep root (run ++ ended ++ [⟨.child tag, t⟩]))
    (hframed : Framed keep d.top.toList frames run)
    (hended : ended.map item = inner.toList.map .child)
    (hbefore : keep = true → before = Position.start.advance (spelled (run ++ ended))) :
    (endElements name tag before inner frames d).2.Steady keep root
      (spelled (run ++ ended) ++ t) := by
  -- `inner` are the elements inside `e` that were just ended, `tag` is the close tag after them.
  induction frames generalizing d inner run ended with
  | nil => simp at hname
  | cons e outer ih =>
    obtain ⟨front, own, rfl, hown, hstart, hrest⟩ := hframed
    rw [endElements]
    split
    · -- The element of this name takes the close tag.
      have hlayout : front ++ own ++ ended ++ [⟨.child tag, t⟩] =
          front ++ (own ++ ended ++ [⟨.child tag, t⟩]) ++ [] := by simp
      rw [hlayout, List.append_assoc own] at h
      have hstop (hkeep : keep = true) := (h.exact hkeep).2.2
      rw [List.append_nil] at hstop
      have hnode := h.endElement inner (some tag) d.here hown (by simp [hended]) hstart hstop
      simp only [List.append_nil] at hnode
      have htext : spelled (front ++ own ++ ended) ++ t =
          spelled front ++ spelled (own ++ (ended ++ [⟨.child tag, t⟩])) := by simp
      rw [htext]
      apply Draft.Sound.attach
      · exact hnode.congr rfl fun _ => rfl
      · exact hrest
      · simp
    · rename_i hne
      have hlayout : front ++ own ++ ended ++ [⟨.child tag, t⟩] =
          front ++ (own ++ ended) ++ [⟨.child tag, t⟩] := by simp
      rw [hlayout] at h
      rw [List.append_assoc front] at hbefore
      have hnode := h.endElement inner none before hown (by simp [hended]) hstart hbefore
      have hsame (id : NodeId) : spelled (front ++ own ++ ended) =
          spelled (front ++ [⟨.child id, spelled (own ++ ended)⟩]) := by simp
      rw [hsame]
      apply ih
      · obtain ⟨e', hmem, he'⟩ := hname
        rcases List.mem_cons.mp hmem with rfl | hmem
        · exact absurd he' hne
        · exact ⟨e', hmem, he'⟩
      · exact hnode
      · exact hrest
      · rfl
      · intro hkeep
        rw [← hsame, List.append_assoc front]
        exact hbefore hkeep

theorem steady_endByTag {d : Draft} {text : List Char}
    (h : d.Steady keep root text) (t : CloseTag) :
    (endByTag t d.here (closeTag t d).1 (closeTag t d).2).2.Steady keep root (text ++ t.text) := by
  have hattach := steady_attach (closeTag t) h (lays_closeTag t)
  obtain ⟨run, hsound, hframed, htext⟩ := h
  have htag := lays_closeTag t d run hsound
  obtain ⟨u, hlaid, hspelled⟩ := htag.exists_node
  rw [← htag.openElements, ← htag.top] at hframed
  change (if _ then _ else _ : Layout Unit) _ |>.2.Steady keep root _
  split
  · rename_i hany
    obtain ⟨e, he, hname⟩ := List.any_eq_true.mp hany
    have hhere (hkeep : keep = true) := (hsound.exact hkeep).2.2
    rw [← List.append_nil run] at hlaid hhere
    have hnone : ([] : List Stretch).map item = (#[] : Array NodeId).toList.map .child := rfl
    obtain ⟨run', hsound', hframed', htext'⟩ :=
      steady_endElements _ ⟨e, he, by simpa using hname⟩ hlaid hframed hnone hhere
    refine ⟨run', hsound', hframed', ?_⟩
    intro hkeep
    rw [htext' hkeep, List.append_nil, htext hkeep, hspelled hkeep]
  · exact hattach

theorem steady_endAll (frames : List OpenElement) {d : Draft} {inner : Array NodeId}
    {run ended : List Stretch} (h : d.Sound keep root (run ++ ended))
    (hframed : Framed keep d.top.toList frames run)
    (hended : ended.map item = inner.toList.map .child) :
    (endAll inner frames d).2.Steady keep root (spelled (run ++ ended)) ∧
      (endAll inner frames d).2.openElements = [] := by
  -- `inner` are the elements inside the innermost open one that were just ended.
  induction frames generalizing d inner run ended with
  | nil =>
    have hrun : run.map item = d.top.toList.map .child := hframed
    refine ⟨⟨run ++ ended, h.congr rfl fun _ => rfl, ?_, fun _ => rfl⟩, rfl⟩
    simp [endAll, Framed, hrun, hended]
  | cons e outer ih =>
    obtain ⟨front, own, rfl, hown, hstart, hrest⟩ := hframed
    have hlayout : front ++ own ++ ended = front ++ (own ++ ended) ++ [] := by simp
    rw [hlayout] at h
    have hstop (hkeep : keep = true) := (h.exact hkeep).2.2
    rw [List.append_nil] at hstop
    have hnode := h.endElement inner none d.here hown (by simp [hended]) hstart hstop
    simp only [List.append_nil] at hnode
    have hsame (id : NodeId) : spelled (front ++ own ++ ended) =
        spelled (front ++ [⟨.child id, spelled (own ++ ended)⟩]) := by simp
    rw [hsame]
    exact ih hnode hrest rfl

/-! ## Pieces -/

theorem steady_text {d : Draft} {text : List Char} (h : d.Steady keep root text)
    (content : List Char) :
    (piece keep (.text content) d).2.Steady keep root (text ++ content) := by
  refine steady_attach (do let start ← here; let t ← token content; node start (.text t)) h ?_
  intro d run h
  exact ((Spread.refl h).next (lays_token content)).node h rfl

theorem steady_threeParts {d : Draft} {text : List Char} (h : d.Steady keep root text)
    (opening content closing : List Char) {make : Token → Token → Token → Content}
    (hmake : ∀ a b c, (make a b c).items = [a, b, c].map .token) :
    (threeParts opening content closing make d).2.Steady keep root
      (text ++ (opening ++ content ++ closing)) := by
  refine steady_attach (do
    let start ← here
    let first ← token opening
    let middle ← token content
    let last ← token closing
    node start (make first middle last)) h ?_
  intro d run h
  have hparts := (((Spread.refl h).next (lays_token opening)).next (lays_token content)).next
    (lays_token closing)
  exact hparts.node h (hmake _ _ _)

theorem steady_piece {d : Draft} {text : List Char} (h : d.Steady keep root text) (p : Piece) :
    (piece keep p d).2.Steady keep root (text ++ p.source) := by
  cases p with
  | text content => exact steady_text h content
  | erb e => exact steady_attach (erb e) h (lays_erb e)
  | comment content =>
    exact steady_threeParts h commentOpening content commentClosing fun _ _ _ => rfl
  | doctype content =>
    exact steady_threeParts h doctypeOpening content doctypeClosing fun _ _ _ => rfl
  | openTag t => exact steady_beginElement h t
  | closeTag t => exact steady_endByTag h t

theorem steady_pieces (ps : List Piece) {d : Draft} {text : List Char}
    (h : d.Steady keep root text) :
    (pieces keep ps d).2.Steady keep root (text ++ ps.flatMap Piece.source) := by
  induction ps generalizing d text with
  | nil =>
    rw [List.flatMap_nil, List.append_nil]
    exact h
  | cons p rest ih =>
    rw [List.flatMap_cons, ← List.append_assoc]
    exact ih (steady_piece h p)

end Layout

/-! ## Documents -/

/-- The root stands alone on top; with blanks kept, it spells the pieces from the start on. -/
theorem sound_ofPieces (keep : Bool) (ps : List Piece) :
    (Document.ofPieces keep ps).Forest [(Document.ofPieces keep ps).root] ∧
      (keep = true → (Document.ofPieces keep ps).Exact ∧
        (Document.ofPieces keep ps).location? (Document.ofPieces keep ps).root =
          some ⟨.start, Position.start.advance (ps.flatMap Piece.source)⟩ ∧
        (Document.ofPieces keep ps).text (Document.ofPieces keep ps).root =
          ps.flatMap Piece.source) := by
  generalize hroot : (Document.ofPieces keep ps).root = root
  obtain ⟨run, hsound, hframed, htext⟩ := Layout.steady_pieces ps (Draft.steady_empty keep root)
  rw [← List.append_nil run] at hsound
  have hnone : ([] : List Stretch).map item = (#[] : Array NodeId).toList.map .child := rfl
  obtain ⟨⟨run', hsound', hframed', htext'⟩, hopen⟩ :
      (Draft.ofPieces keep ps).Steady keep root _ ∧ (Draft.ofPieces keep ps).openElements = [] :=
    Layout.steady_endAll _ hsound hframed hnone
  rw [hopen] at hframed'
  have hspelled (hkeep : keep = true) : spelled run' = ps.flatMap Piece.source := by
    rw [htext' hkeep, List.append_nil, htext hkeep, List.nil_append]
  rw [← List.nil_append run', ← List.append_nil ([] ++ run')] at hsound'
  have hloc (hkeep : keep = true) : (⟨.start, (Draft.ofPieces keep ps).here⟩ : Location) =
      ⟨Position.start.advance (spelled []), Position.start.advance (spelled ([] ++ run'))⟩ := by
    rw [(hsound'.exact hkeep).2.2, List.append_nil]
    rfl
  have hitems : (Content.document (Draft.ofPieces keep ps).top.toList).items =
      run'.map item := hframed'.symm
  have hpush : (Draft.ofPieces keep ps).addRoot.2.Sound keep root
      ([] ++ [⟨.child (Draft.ofPieces keep ps).addRoot.1, spelled run'⟩] ++ []) :=
        hsound'.push hitems hloc
  have hid : (Draft.ofPieces keep ps).addRoot.1 = root := hroot
  rw [List.nil_append, List.append_nil, hid] at hpush
  rw [Document.ofPieces_eq_view, hid]
  refine ⟨hpush.forest, ?_⟩
  intro hkeep
  obtain ⟨hexact, ⟨⟨hplace, hspells⟩, -⟩, -⟩ := hpush.exact hkeep
  rw [hspelled hkeep] at hplace hspells
  exact ⟨hexact, hplace, hspells⟩

end TemplateLint
