import TemplateLint.Proofs.Tracking
import TemplateLint.Rules.BooleanAttribute

/-!
# Repairs

What the fix of a rule does to a document that earlier fixes have changed. A fix mends the node it
is for and, in a value with quotes of both kinds, its literals with double quotes. Main statements:
each fix reaches its end on a node that is still there and not yet mended, and keeps track of all
nodes.
-/

namespace TemplateLint

/-! ## Steps of an edit -/

namespace Edit

variable {d d' : Document} {id z : NodeId} {n : Node}

theorem run_node (h : d.get? id = some n) : (Edit.node id).run d = .ok n d := by
  have hnode : d.node id = .ok n := by
    unfold Document.get? at h
    unfold Document.node Document.liveSlot
    split at h
    · split at h
      · simp_all [Except.map]
      · simp at h
    · simp at h
  change EStateM.run (Edit.ofExcept (d.node id)) d = _
  rw [hnode]
  rfl

theorem run_node_dead (hsize : id < d.slots.size) (h : d.isLive id = false) :
    (Edit.node id).run d = .error (.tree (.staleNode id)) d := by
  have hnode : d.node id = .error (.staleNode id) := by
    unfold Document.isLive Document.get? at h
    unfold Document.node Document.liveSlot
    simp only [Array.getElem?_eq_getElem hsize] at h ⊢
    split at h
    · simp at h
    · simp_all [Except.map]
  change EStateM.run (Edit.ofExcept (d.node id)) d = _
  rw [hnode]
  rfl

theorem run_replace (h : d.replace id n = .ok (z, d')) : (Edit.replace id n).run d = .ok z d' := by
  change EStateM.run (EStateM.bind (Edit.ofExcept (d.replace id n)) _) d = _
  rw [h]
  rfl

theorem run_bind_ok {α β : Type} {x : Edit α} {a : α} (h : x.run d = .ok a d') (f : α → Edit β) :
    (x >>= f).run d = (f a).run d' := by
  rw [EStateM.run_bind, h]

theorem run_bind_error {α β : Type} {x : Edit α} {err : FixFailure}
    (h : x.run d = .error err d') (f : α → Edit β) :
    (x >>= f).run d = .error err d' := by
  rw [EStateM.run_bind, h]

def changed? (edit : Edit Bool) (d : Document) : Option Document :=
  match edit.run d with
  | .ok true d' => some d'
  | _ => none

theorem changed?_eq_some_iff {edit : Edit Bool} :
    changed? edit d = some d' ↔ edit.run d = .ok true d' := by
  unfold changed?
  split <;> simp_all

end Edit

/-! ## What a fix mends -/

namespace Document

open Rules.QuotedValue

variable {d : Document}

def hasDoubleQuote (d : Document) (id : NodeId) : Bool :=
  match d.get? id with
  | some ⟨_, .literal content⟩ => content.chars.contains '"'
  | _ => false

theorem hasDoubleQuote_iff {x : NodeId} :
    d.hasDoubleQuote x = true ↔
      ∃ location content, d.get? x = some ⟨location, .literal content⟩ ∧
        content.chars.contains '"' = true := by
  rw [hasDoubleQuote]
  split
  · rename_i location content hget
    simp [hget]
  · rename_i hother
    simp only [Bool.false_eq_true, false_iff]
    rintro ⟨location, content, hget, -⟩
    exact hother location content hget

/-- The parts of a value that are escaped when it gets its quotes. -/
def escapees (d : Document) (children : List NodeId) : List NodeId :=
  if (literalText d children).contains '"' && (literalText d children).contains '\'' then
    children.filter d.hasDoubleQuote
  else []

def amends (d : Document) (id : NodeId) : List NodeId :=
  id :: match d.get? id with
    | some ⟨_, .attrValue _ children _⟩ => d.escapees children
    | _ => []

theorem mem_of_escapees {children : List NodeId} {x : NodeId} (h : x ∈ d.escapees children) :
    x ∈ children ∧ d.hasDoubleQuote x = true := by
  unfold escapees at h
  split at h
  · exact List.mem_filter.mp h
  · simp at h

theorem amends_of_not_value {n : Node} {x : NodeId} (h : d.get? x = some n)
    (hn : ∀ openQuote children closeQuote, n.content ≠ .attrValue openQuote children closeQuote) :
    d.amends x = [x] := by
  obtain ⟨location, content⟩ := n
  rw [amends, h]
  cases content with
  | attrValue openQuote children closeQuote => exact absurd rfl (hn openQuote children closeQuote)
  | _ => rfl

end Document

/-! ## Fixes of tracked nodes -/

namespace Tracks

variable {d e : Document} {fixed fixed' : List NodeId} {present : NodeId → Prop}
  {now : NodeId → NodeId} {t : NodeId} {n : Node}

theorem congr_fixed (h : Tracks d e fixed present now) (hf : ∀ a, a ∈ fixed ↔ a ∈ fixed') :
    Tracks d e fixed' present now := by
  have hmend (a : NodeId) (n : Node) : d.mendAt fixed' a n = d.mendAt fixed a n := by
    simp only [Document.mendAt, hf]
  refine ⟨h.forest, h.size, h.root, ?_, h.injective, ?_, ?_⟩
  · intro a ha
    rw [funext (hmend a)]
    exact h.node a ha
  · intro a ha
    exact h.kept a fun hm => ha ((hf a).mp hm)
  · intro a hsize hlive
    rw [← hf a]
    exact h.alive a hsize hlive

theorem get?_fresh (h : Tracks d e fixed present now) (ht : present t) (hfresh : t ∉ fixed)
    (hn : d.get? t = some n) :
    e.get? t = some (n.mapChildren now) := by
  have hget := (h.get? ht hn).1
  rwa [h.kept t hfresh, Document.mendAt, if_neg hfresh] at hget

theorem children_fresh (h : Tracks d e fixed present now) (ht : present t) (hfresh : t ∉ fixed)
    (hn : d.get? t = some n) (hkids : ∀ l ∈ n.children, l ∉ fixed) :
    e.children t = n.children ∧ ∀ l ∈ n.children, present l ∧ l ∉ fixed ∧ l ≠ d.root := by
  have hmap : n.children.map now = n.children := by
    rw [List.map_congr_left fun l hl => h.kept l (hkids l hl)]
    exact List.map_id _
  have hchildren : e.children t = n.children := by
    rw [Document.children_of_get? (h.get?_fresh ht hfresh hn)]
    exact (Node.children_mapChildren now n).trans hmap
  refine ⟨hchildren, fun l hl => ⟨?_, hkids l hl, ?_⟩⟩
  · have hpresent := (h.get? ht hn).2 l
    rw [Document.mendAt, if_neg hfresh] at hpresent
    exact hpresent hl
  · rintro rfl
    have htop := h.root.2
    rw [h.kept _ (hkids _ hl)] at htop
    rw [← hchildren, htop] at hl
    exact h.forest.not_child_of_top (by simp) hl

end Tracks

section Fixes

variable {d e : Document} {fixed : List NodeId} {present : NodeId → Prop}
  {now : NodeId → NodeId} {t : NodeId} {n : Node}

/-! ### Tag names -/

namespace Rules.TagName

theorem lowered?_eq_some {name lower : String} :
    lowered? name = some lower ↔ lower ≠ name ∧ lower = Text.Case.lower name := by
  rw [lowered?]
  grind

theorem lowerTag?_mapChildren (c : Content) :
    lowerTag? (c.mapChildren now) = (lowerTag? c).map (Content.mapChildren now) := by
  cases c with
  | openTag opening name children closing =>
    simp only [Content.mapChildren, lowerTag?, Option.map_map]
    rfl
  | closeTag opening name trailing closing =>
    simp only [Content.mapChildren, lowerTag?, Option.map_map]
    rfl
  | _ => rfl

theorem mended_of_lowerTag? {c : Content} (h : lowerTag? n.content = some c) :
    d.mended n = { n with content := c } ∧ (d.mended n).children = n.children := by
  obtain ⟨location, content⟩ := n
  cases content with
  | openTag opening name children closing =>
    obtain ⟨lower, hlower, rfl⟩ := Option.map_eq_some_iff.mp h
    rw [(lowered?_eq_some.mp hlower).2]
    exact ⟨rfl, rfl⟩
  | closeTag opening name trailing closing =>
    obtain ⟨lower, hlower, rfl⟩ := Option.map_eq_some_iff.mp h
    rw [(lowered?_eq_some.mp hlower).2]
    exact ⟨rfl, rfl⟩
  | _ => simp [lowerTag?] at h

theorem run_fix_small (h : Tracks d e fixed present now) (ht : present t) (hfresh : t ∉ fixed)
    (hn : d.get? t = some n) (hlower : lowerTag? n.content = none) :
    (fix t).run e = .ok false e := by
  have hnone : lowerTag? (n.mapChildren now).content = none := by
    rw [Node.mapChildren, lowerTag?_mapChildren, hlower, Option.map_none]
  rw [fix, Edit.run_bind_ok (Edit.run_node (h.get?_fresh ht hfresh hn))]
  simp only [hnone]
  rfl

theorem run_fix (h : Tracks d e fixed present now) (ht : present t) (hfresh : t ∉ fixed)
    (hn : d.get? t = some n) (hroot : t ≠ d.root) {c : Content}
    (hlower : lowerTag? n.content = some c) :
    ∃ e' now', (fix t).run e = .ok true e' ∧ Tracks d e' (d.amends t ++ fixed) present now' := by
  obtain ⟨hmended, hkids⟩ := mended_of_lowerTag? (d := d) hlower
  obtain ⟨e', hreplace, htracks⟩ := h.replace ht hn hfresh hroot hkids
  have hsome : lowerTag? (n.mapChildren now).content = some (c.mapChildren now) := by
    rw [Node.mapChildren, lowerTag?_mapChildren, hlower, Option.map_some]
  have hamends : d.amends t = [t] := by
    apply Document.amends_of_not_value hn
    intro openQuote children closeQuote hcontent
    simp [hcontent, lowerTag?] at hlower
  rw [h.kept t hfresh, hmended] at hreplace
  rw [hamends]
  refine ⟨e', _, ?_, htracks⟩
  rw [fix, Edit.run_bind_ok (Edit.run_node (h.get?_fresh ht hfresh hn))]
  simp only [hsome]
  exact Edit.run_bind_ok (Edit.run_replace hreplace) _

end Rules.TagName

/-! ### Quotes -/

namespace Rules.QuotedValue

theorem run_escapeLiterals (h : Tracks d e fixed present now)
    {ids : List NodeId} (hnodup : ids.Nodup)
    (hids : ∀ l ∈ ids, present l ∧ l ∉ fixed ∧ l ≠ d.root) :
    ∃ e' now', (escapeLiterals ids).run e = .ok () e' ∧
      Tracks d e' (ids.filter d.hasDoubleQuote ++ fixed) present now' := by
  induction ids generalizing e fixed now with
  | nil => exact ⟨e, now, rfl, h⟩
  | cons l rest ih =>
    rw [List.nodup_cons] at hnodup
    rw [List.forall_mem_cons] at hids
    obtain ⟨⟨hl, hfresh, hroot⟩, hrest⟩ := hids
    cases hquote : d.hasDoubleQuote l with
    | false =>
      obtain ⟨n, hn, -⟩ := h.node l hl
      rw [escapeLiterals, Edit.run_bind_ok (Edit.run_node (h.get?_fresh hl hfresh hn))]
      obtain ⟨e', now', hrun, htracks⟩ := ih h hnodup.2 hrest
      refine ⟨e', now', ?_, ?_⟩
      · obtain ⟨location, content⟩ := n
        rw [← hrun]
        cases content with
        | literal content =>
          have hclean : content.chars.contains '"' = false := by
            simpa [Document.hasDoubleQuote, hn] using hquote
          simp only [Node.mapChildren, Content.mapChildren]
          rw [hclean]
          rfl
        | _ => rfl
      · rwa [List.filter_cons_of_neg (by simp [hquote])]
    | true =>
      obtain ⟨location, content, hn, hmark⟩ := Document.hasDoubleQuote_iff.mp hquote
      obtain ⟨e₁, hreplace, htracks₁⟩ := h.replace hl hn hfresh hroot rfl
      obtain ⟨e', now', hrun, htracks⟩ := ih htracks₁ hnodup.2 fun x hx => by
        obtain ⟨hpresent, hx', hroot'⟩ := hrest x hx
        have hne : x ≠ l := by
          rintro rfl
          exact hnodup.1 hx
        exact ⟨hpresent, by simp [hne, hx'], hroot'⟩
      refine ⟨e', now', ?_, ?_⟩
      · rw [h.kept l hfresh] at hreplace
        rw [← hrun, escapeLiterals, Edit.run_bind_ok (Edit.run_node (h.get?_fresh hl hfresh hn))]
        simp only [Node.mapChildren, Content.mapChildren]
        rw [if_pos hmark]
        exact Edit.run_bind_ok (Edit.run_replace hreplace) _
      · rw [List.filter_cons_of_pos hquote]
        apply htracks.congr_fixed
        simp only [List.mem_append, List.mem_cons]
        grind

theorem run_quoteWith (h : Tracks d e fixed present now) (ht : present t)
    (hfresh : t ∉ fixed) (hroot : t ≠ d.root) {location : Location}
    {openQuote closeQuote : Option Token} {children : List NodeId}
    (hn : d.get? t = some ⟨location, .attrValue openQuote children closeQuote⟩) :
    ∃ e' now', (quoteWith t (d.quoteFor children)).run e = .ok true e' ∧
      Tracks d e' (t :: fixed) present now' := by
  obtain ⟨e', hreplace, htracks⟩ := h.replace ht hn hfresh hroot rfl
  rw [h.kept t hfresh] at hreplace
  refine ⟨e', _, ?_, htracks⟩
  rw [quoteWith, Edit.run_bind_ok (Edit.run_node (h.get?_fresh ht hfresh hn))]
  exact Edit.run_bind_ok (Edit.run_replace hreplace) _

theorem literalText_fresh (h : Tracks d e fixed present now) {ids : List NodeId}
    (hids : ∀ l ∈ ids, present l ∧ l ∉ fixed) : literalText e ids = literalText d ids := by
  apply List.flatMap_congr
  intro l hl
  obtain ⟨n, hn, -⟩ := h.node l (hids l hl).1
  rw [h.get?_fresh (hids l hl).1 (hids l hl).2 hn, hn]
  obtain ⟨location, content⟩ := n
  cases content <;> rfl

theorem run_fix (h : Tracks d e fixed present now) (ht : present t)
    (hfresh : t ∉ fixed) (hroot : t ≠ d.root) {location : Location} {closeQuote : Option Token}
    {children : List NodeId} (hn : d.get? t = some ⟨location, .attrValue none children closeQuote⟩)
    (hkids : ∀ l ∈ children, l ∉ fixed) :
    ∃ e' now', (fix t).run e = .ok true e' ∧ Tracks d e' (d.amends t ++ fixed) present now' := by
  have hget := h.get?_fresh ht hfresh hn
  obtain ⟨hchildren, hids⟩ : e.children t = children ∧ ∀ l ∈ children, present l ∧
      l ∉ fixed ∧ l ≠ d.root :=
    h.children_fresh ht hfresh hn hkids
  have hmap : children.map now = children := (Document.children_of_get? hget).symm.trans hchildren
  have hamends : d.amends t = t :: d.escapees children := by rw [Document.amends, hn]
  have hsteps : (fix t).run e =
      (if (literalText d children).contains '"' then
        if (literalText d children).contains '\'' then do
          escapeLiterals children
          quoteWith t "\""
        else quoteWith t "'"
      else quoteWith t "\"").run e := by
    rw [fix, Edit.run_bind_ok (Edit.run_node hget)]
    simp only [Node.mapChildren, Content.mapChildren, hmap]
    rw [Edit.run_bind_ok (show EStateM.run get e = .ok e e from rfl),
      literalText_fresh h fun l hl => ⟨(hids l hl).1, (hids l hl).2.1⟩]
  rw [hsteps, hamends, Document.escapees]
  have hquote : d.quoteFor children =
      if (literalText d children).contains '"' && !(literalText d children).contains '\'' then "'"
      else "\"" := rfl
  by_cases hdouble : (literalText d children).contains '"' = true
  · by_cases hsingle : (literalText d children).contains '\'' = true
    · -- The literals go first; the value still stands where it stood.
      have hnodup : children.Nodup := hchildren ▸ h.forest.children_nodup t
      have hself : t ∉ children := by
        rw [← hchildren]
        intro hmem
        exact h.forest.grounded.not_below_of_child hmem (.refl e t)
      obtain ⟨e₁, now₁, hrun₁, htracks₁⟩ := run_escapeLiterals h hnodup hids
      obtain ⟨e', now', hrun, htracks⟩ :=
        run_quoteWith htracks₁ ht (by simp [hself, hfresh]) hroot hn
      simp only [hdouble, hsingle, Bool.not_true, Bool.and_false,
        Bool.false_eq_true, if_true, if_false, Bool.and_true] at hquote ⊢
      rw [hquote] at hrun
      exact ⟨e', now', (Edit.run_bind_ok hrun₁ _).trans hrun, htracks⟩
    · simp only [hdouble, hsingle, Bool.not_false, Bool.and_true, Bool.and_false,
        Bool.false_eq_true, if_true, if_false] at hquote ⊢
      rw [← hquote]
      exact run_quoteWith h ht hfresh hroot hn
  · simp only [hdouble, Bool.false_and, Bool.false_eq_true, if_false] at hquote ⊢
    rw [← hquote]
    exact run_quoteWith h ht hfresh hroot hn

end Rules.QuotedValue

/-! ### Boolean attributes -/

namespace Rules.BooleanAttribute

theorem run_fix_bare (h : Tracks d e fixed present now) (ht : present t)
    (hfresh : t ∉ fixed) {location : Location} {name : Token}
    (hn : d.get? t = some ⟨location, .attr name none none⟩) : (fix t).run e = .ok false e := by
  rw [fix, Edit.run_bind_ok (Edit.run_node (h.get?_fresh ht hfresh hn))]
  rfl

theorem run_fix (h : Tracks d e fixed present now) (ht : present t)
    (hfresh : t ∉ fixed) (hroot : t ≠ d.root) {location : Location} {name : Token}
    {equals : Option Token} {value : Option NodeId}
    (hn : d.get? t = some ⟨location, .attr name equals value⟩)
    (hvalue : ¬ (equals = none ∧ value = none)) :
    ∃ e' present' now', (fix t).run e = .ok true e' ∧
      Tracks d e' (d.amends t ++ fixed) present' now' := by
  obtain ⟨e', parent, hreplace, hstep⟩ := h.exists_step ht hn hfresh hroot
  have hamends : d.amends t = [t] := Document.amends_of_not_value hn (by simp)
  rw [h.kept t hfresh] at hreplace
  rw [hamends]
  refine ⟨e', _, _, ?_, hstep.tracks'⟩
  rw [fix, Edit.run_bind_ok (Edit.run_node (h.get?_fresh ht hfresh hn))]
  simp only [Node.mapChildren, Content.mapChildren, Option.isNone_map]
  rw [if_neg (by simpa using hvalue)]
  exact Edit.run_bind_ok (Edit.run_replace hreplace) _

end Rules.BooleanAttribute

end Fixes

end TemplateLint
