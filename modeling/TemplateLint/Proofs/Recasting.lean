import TemplateLint.Proofs.Locality
import TemplateLint.Proofs.Pairing
import TemplateLint.Proofs.Repairs
import TemplateLint.Rules.Catalog

/-!
# Recast nodes

The fixes of the catalog recast nodes: a tag gets another name, a value gets quotes, an attribute
loses its value. Each time a node gives way to one of its kind that holds no more than it did. Main
statement: a tree in which every element begins with an open tag stays one under all fixes
(`whole_of_fixed`).
-/

namespace TemplateLint

/-! ## Recasting one node -/

namespace Content

def isElement : Content → Bool
  | element .. => true
  | _ => false

/-- A node with the content `c'` may be put in the place of one with the content `c`. -/
structure Recasts (c c' : Content) : Prop where
  children : c'.children.Sublist c.children
  isOpenTag : c'.isOpenTag = c.isOpenTag
  isElement : c'.isElement = false

theorem isOpenTag_redirect (c : Content) (old new : NodeId) :
    (c.redirect old new).isOpenTag = c.isOpenTag := by
  cases c with
  | element first body last isVoid =>
    rw [redirect]
    split
    · rfl
    · split <;> rfl
  | _ => rfl

theorem element_of_redirect {c : Content} {old new first : NodeId} {body : List NodeId}
    {last : Option NodeId} {isVoid : Bool}
    (h : c.redirect old new = element first body last isVoid) :
    ∃ first' body' last', c = element first' body' last' isVoid ∧
      (first' = old ∧ first = new ∨ first' ≠ old ∧ first = first') := by
  cases c with
  | element first' body' last' isVoid' =>
    rw [redirect] at h
    split at h
    · rename_i he
      obtain ⟨rfl, -, -, rfl⟩ := element.inj h
      exact ⟨first', body', last', rfl, Or.inl ⟨he, rfl⟩⟩
    · rename_i hne
      split at h
      · obtain ⟨rfl, -, -, rfl⟩ := element.inj h
        exact ⟨first', body', last', rfl, Or.inr ⟨hne, rfl⟩⟩
      · obtain ⟨rfl, -, -, rfl⟩ := element.inj h
        exact ⟨first', body', last', rfl, Or.inr ⟨hne, rfl⟩⟩
  | _ => simp [redirect] at h

end Content

namespace Document

/-- One node gives way to a new one that recasts it. -/
def Recasts (d d' : Document) : Prop :=
  ∃ old n new id, d.get? old = some n ∧ n.content.Recasts new.content ∧
    d.replace old new = .ok (id, d')

/-- The document is a tree, and in it every element begins with an open tag. -/
structure Whole (d : Document) : Prop where
  forest : d.Forest [d.root]
  opens : ∀ {x first : NodeId} {body : List NodeId} {last : Option NodeId} {isVoid : Bool},
    d.content? x = some (.element first body last isVoid) → ∃ c,
      d.content? first = some c ∧ c.isOpenTag = true

variable {d d' : Document} {old parent x : NodeId} {new : Node}

theorem Replaced.content?_kept (h : d.Replaced d' old new parent) (hne : x ≠ d.slots.size)
    (hx : ¬ d.Gone old new x) :
    d'.content? x = (d.content? x).map fun c =>
      if x = parent then c.redirect old d.slots.size else c := by
  rw [content?, content?, get?, get?, h.kept x hne hx]
  cases d.slots[x]? with
  | none => rfl
  | some slot =>
    by_cases hlive : slot.live = true <;> by_cases hp : x = parent <;> simp [keptSlot, hlive, hp]

theorem Replaced.isOpenTag_kept (h : d.Replaced d' old new parent) (hne : x ≠ d.slots.size)
    (hx : ¬ d.Gone old new x) {c : Content} (hc : d.content? x = some c)
    (hopen : c.isOpenTag = true) :
    ∃ c', d'.content? x = some c' ∧ c'.isOpenTag = true := by
  rw [h.content?_kept hne hx, hc]
  refine ⟨_, rfl, ?_⟩
  split
  · rw [Content.isOpenTag_redirect, hopen]
  · exact hopen

theorem Whole.recast (h : d.Whole) (hr : d.Recasts d') : d'.Whole := by
  obtain ⟨old, n, new, id, hget, hrecast, hreplace⟩ := hr
  have hkids : n.content.children = d.children old := (children_of_get? hget).symm
  have hnodup : new.children.Nodup :=
    (h.forest.children_nodup old).sublist (hkids ▸ hrecast.children)
  have hsound : Revision.Sound ⟨d, []⟩ d.root := ⟨rfl, h.forest, by simp⟩
  obtain ⟨-, parent, hrep⟩ := replaced_of_replace h.forest hreplace
  have hf : d'.Forest [d.root] := (hsound.replaced hnodup hrep).forest
  refine ⟨hrep.root.symm ▸ hf, ?_⟩
  intro x first body last isVoid hx
  have hlive : d'.isLive x = true := by
    obtain ⟨node, hnode, -⟩ := get?_of_content? hx
    exact isLive_of_get? hnode
  have hne : x ≠ d.slots.size := by
    rintro rfl
    rw [content?, hrep.get?_new, Option.map_some] at hx
    have helement := hrecast.isElement
    rw [Option.some.inj hx] at helement
    cases helement
  have hstays : ¬ d.Gone old new x := by
    intro hgone
    rw [hrep.gone x hgone] at hlive
    cases hlive
  rw [hrep.content?_kept hne hstays] at hx
  obtain ⟨c, hc, hcx⟩ := Option.map_eq_some_iff.mp hx
  have hchild {first' : NodeId} {body' : List NodeId} {last' : Option NodeId} {isVoid' : Bool}
      (hc : d.content? x = some (.element first' body' last' isVoid')) : first' ∈ d.children x := by
    rw [children_of_content? hc]
    exact List.mem_cons_self
  have hkept {first' : NodeId} (hmem : first' ∈ d.children x) (hold : first' ≠ old) {c : Content}
      (hc : d.content? first' = some c) (hopen : c.isOpenTag = true) :
      ∃ c', d'.content? first' = some c' ∧ c'.isOpenTag = true :=
    hrep.isOpenTag_kept (ne_size_of_isLive (h.forest.isLive_of_child hmem))
      (hrep.not_gone_child h.forest hmem hold hstays)
      hc hopen
  split at hcx
  · rename_i hparent
    -- The parent of the recast node: its open tag is that node, or another one.
    obtain ⟨first', body', last', rfl, ⟨rfl, rfl⟩ | ⟨hold, rfl⟩⟩ := Content.element_of_redirect hcx
    · obtain ⟨tag, htag, hopen⟩ := h.opens hc
      rw [content?_of_get? hget] at htag
      obtain rfl := Option.some.inj htag
      exact ⟨_, content?_of_get? hrep.get?_new, hrecast.isOpenTag.trans hopen⟩
    · obtain ⟨tag, htag, hopen⟩ := h.opens hc
      exact hkept (hchild hc) hold htag hopen
  · rename_i hparent
    subst hcx
    obtain ⟨tag, htag, hopen⟩ := h.opens hc
    have hold : first ≠ old := by
      rintro rfl
      exact hparent (h.forest.parent_unique (hchild hc) (hrep.old_mem h.forest))
    exact hkept (hchild hc) hold htag hopen

theorem Whole.recasts (h : d.Whole) (hr : Relation.ReflTransGen Recasts d d') : d'.Whole := by
  induction hr with
  | refl => exact h
  | tail _ hstep ih => exact ih.recast hstep

end Document

/-! ## Fixes recast nodes -/

namespace Edit

variable {d d' : Document} {id z : NodeId} {n : Node}

theorem exists_run_of_bind {α β : Type} {x : Edit α} {f : α → Edit β} {b : β}
    (h : (x >>= f).run d = .ok b d') :
    ∃ a e, x.run d = .ok a e ∧ (f a).run e = .ok b d' := by
  rw [EStateM.run_bind] at h
  split at h
  · rename_i a e hx
    exact ⟨a, e, hx, h⟩
  · cases h

theorem exists_of_run_node {α : Type} {f : Node → Edit α} {a : α}
    (h : (Edit.node id >>= f).run d = .ok a d') :
    ∃ n, d.get? id = some n ∧ (f n).run d = .ok a d' := by
  obtain ⟨n, e, hnode, h⟩ := exists_run_of_bind h
  change EStateM.run (Edit.ofExcept (d.node id)) d = _ at hnode
  rw [Document.node] at hnode
  cases hslot : d.liveSlot id with
  | error e =>
    rw [hslot] at hnode
    cases hnode
  | ok slot =>
    rw [hslot] at hnode
    cases hnode
    obtain ⟨hs, hlive⟩ := Document.liveSlot_ok_iff.mp hslot
    exact ⟨slot.node, by rw [Document.get?_of_slot hs, if_pos hlive], h⟩

theorem recasts_of_run {α : Type} {k : NodeId → Edit α} {a : α}
    (hget : d.get? id = some n) {new : Node} (hrecast : n.content.Recasts new.content)
    (h : (Edit.replace id new >>= k).run d = .ok a d') :
    ∃ z e, d.Recasts e ∧ (k z).run e = .ok a d' := by
  obtain ⟨z, e, hrep, h⟩ := exists_run_of_bind h
  exact ⟨z, e, ⟨id, n, new, z, hget, hrecast, Change.run_replace_ok.mp hrep⟩, h⟩

end Edit

namespace Rules

open Relation

variable {d d' : Document} {id : NodeId} {changed : Bool}

theorem TagName.recasts_of_lowerTag? {c c' : Content} (h : lowerTag? c = some c') :
    c.Recasts c' := by
  cases c with
  | openTag opening name children closing =>
    obtain ⟨lower, -, rfl⟩ := Option.map_eq_some_iff.mp h
    exact ⟨.refl _, rfl, rfl⟩
  | closeTag opening name trailing closing =>
    obtain ⟨lower, -, rfl⟩ := Option.map_eq_some_iff.mp h
    exact ⟨.refl _, rfl, rfl⟩
  | _ => simp [lowerTag?] at h

theorem TagName.recasts_of_fix (h : (fix id).run d = .ok changed d') :
    ReflTransGen Document.Recasts d d' := by
  unfold fix at h
  obtain ⟨n, hget, h⟩ := Edit.exists_of_run_node h
  split at h
  · cases h
    exact .refl
  · rename_i c hlower
    obtain ⟨z, e, hrecasts, h⟩ := Edit.recasts_of_run hget (recasts_of_lowerTag? hlower) h
    cases h
    exact .single hrecasts

theorem BooleanAttribute.recasts_of_fix (h : (fix id).run d = .ok changed d') :
    ReflTransGen Document.Recasts d d' := by
  unfold fix at h
  obtain ⟨n, hget, h⟩ := Edit.exists_of_run_node h
  split at h
  · rename_i name equals value hcontent
    split at h
    · cases h
      exact .refl
    · have hrecast : n.content.Recasts (.attr name none none) := by
        rw [hcontent]
        exact ⟨List.nil_sublist _, rfl, rfl⟩
      obtain ⟨z, e, hrecasts, h⟩ := Edit.recasts_of_run hget hrecast h
      cases h
      exact .single hrecasts
  · cases h
    exact .refl

namespace QuotedValue

theorem recasts_of_escapeLiterals {ids : List NodeId} {u : Unit}
    (h : (escapeLiterals ids).run d = .ok u d') :
    ReflTransGen Document.Recasts d d' := by
  induction ids generalizing d with
  | nil =>
    cases h
    exact .refl
  | cons l rest ih =>
    unfold escapeLiterals at h
    obtain ⟨n, hget, h⟩ := Edit.exists_of_run_node h
    split at h
    · rename_i content hcontent
      split at h
      · have hrecast (t : Token) : n.content.Recasts (.literal t) := by
          rw [hcontent]
          exact ⟨List.nil_sublist _, rfl, rfl⟩
        obtain ⟨z, e, hrecasts, h⟩ := Edit.recasts_of_run hget (hrecast _) h
        exact .head hrecasts (ih h)
      · exact ih h
    · exact ih h

theorem recasts_of_quoteWith {quote : String} (h : (quoteWith id quote).run d = .ok changed d') :
    ReflTransGen Document.Recasts d d' := by
  unfold quoteWith at h
  obtain ⟨n, hget, h⟩ := Edit.exists_of_run_node h
  split at h
  · rename_i openQuote children closeQuote hcontent
    have hrecast (t t' : Token) : n.content.Recasts (.attrValue (some t) children (some t')) := by
      rw [hcontent]
      exact ⟨.refl _, rfl, rfl⟩
    obtain ⟨z, e, hrecasts, h⟩ := Edit.recasts_of_run hget (hrecast _ _) h
    cases h
    exact .single hrecasts
  · cases h
    exact .refl

theorem recasts_of_fix (h : (fix id).run d = .ok changed d') :
    ReflTransGen Document.Recasts d d' := by
  unfold fix at h
  obtain ⟨n, hget, h⟩ := Edit.exists_of_run_node h
  split at h
  · rename_i children closeQuote hcontent
    obtain ⟨e, e', hstate, h⟩ := Edit.exists_run_of_bind h
    cases hstate
    extract_lets text at h
    split at h
    · split at h
      · obtain ⟨u, e, hescape, h⟩ := Edit.exists_run_of_bind h
        exact (recasts_of_escapeLiterals hescape).trans (recasts_of_quoteWith h)
      · exact recasts_of_quoteWith h
    · exact recasts_of_quoteWith h
  · cases h
    exact .refl

end QuotedValue

/-- A fix of the catalog that comes to its end does nothing but recast nodes. -/
theorem recasts_of_fix {r : DocumentRule} (hr : .document r ∈ Preset.recommended.rules)
    {notes : List Note} (h : (r.fix id notes).run d = .ok changed d') :
    ReflTransGen Document.Recasts d d' := by
  simp only [Preset.rules, directiveRules, documentRules, List.mem_append,
    List.mem_cons, List.not_mem_nil, or_false] at hr
  rcases hr with (hr | hr | hr | hr | hr) | hr | hr | hr | hr | hr
  all_goals cases hr
  · exact TagName.recasts_of_fix h
  · exact QuotedValue.recasts_of_fix h
  · exact BooleanAttribute.recasts_of_fix h
  · cases h
    exact .refl
  · cases h
    exact .refl

end Rules

/-! ## Histories of fixes -/

/-- The fixes of the catalog that came to their end make `e` out of `d`. -/
inductive Document.FixedTo (d : Document) : Document → Prop where
  | start : FixedTo d d
  | next {e e' : Document} {r : DocumentRule} {id : NodeId} {changed : Bool} (h : FixedTo d e)
      (hr : .document r ∈ Rules.Preset.recommended.rules) (notes : List Note)
      (hfix : (r.fix id notes).run e = .ok changed e') : FixedTo d e'

theorem own_tags_of_parse {source : String} {keep : Bool} {d : Document}
    (h : Document.parse source keep = .ok d) {x first : NodeId} {body : List NodeId}
    {last : Option NodeId} {isVoid : Bool}
    (hx : d.content? x = some (.element first body last isVoid)) :
    (∃ c, d.content? first = some c ∧ c.isOpenTag = true) ∧
      ∀ y ∈ last, ∃ c, d.content? y = some c ∧ c.isCloseTag = true := by
  have hf := forest_of_parse h
  obtain ⟨ps, rfl, -⟩ := exists_pieces_of_parse h
  obtain ⟨children, trail, hroot, hrow⟩ := row_ofPieces keep ps
  have hpaired := Document.paired_of_row hf hroot hrow
  constructor
  · obtain ⟨⟨name, hname, -⟩, -⟩ := hpaired.void hx
    unfold Document.openName? at hname
    split at hname
    · rename_i hcontent
      exact ⟨_, hcontent, rfl⟩
    · cases hname
  · rintro y rfl
    obtain ⟨⟨name, -, hname⟩, -⟩ := hpaired.closed hx
    unfold Document.closeName? at hname
    split at hname
    · rename_i hcontent
      exact ⟨_, hcontent, rfl⟩
    · cases hname

theorem whole_of_parse {source : String} {keep : Bool} {d : Document}
    (h : Document.parse source keep = .ok d) : d.Whole :=
  ⟨forest_of_parse h, fun hx => (own_tags_of_parse h hx).1⟩

theorem whole_of_fixed {source : String} {keep : Bool} {d e : Document}
    (h : Document.parse source keep = .ok d) (he : d.FixedTo e) : e.Whole := by
  induction he with
  | start => exact whole_of_parse h
  | next _ hr notes hfix ih => exact ih.recasts (Rules.recasts_of_fix hr hfix)

end TemplateLint
