import TemplateLint.Proofs.History

/-!
# Locality

A replacement changes the text of the document in one place: where the text of the old node stood,
the text of the new one stands, and all before and behind it stays (`replace_local`).
-/

namespace TemplateLint

/-! ## One item among others -/

theorem Content.render_focus {c c' : Content} {b b' : NodeId} {front back : List Item}
    {f g : NodeId → List Char} (hc : c.items = front ++ .child b :: back)
    (hc' : c'.items = front ++ .child b' :: back) (hnodup : c.children.Nodup)
    (hsame : ∀ k ∈ c.children, k ≠ b → g k = f k) :
    ∃ post, c.render f = front.flatMap (Item.text f) ++ f b ++ post ∧
      c'.render g = front.flatMap (Item.text f) ++ g b' ++ post := by
  have hkids : c.children = front.filterMap Item.child? ++ b :: back.filterMap Item.child? := by
    rw [children_eq_items, hc, List.filterMap_append]
    rfl
  rw [hkids, List.nodup_middle, List.nodup_cons, List.mem_append, Item.mem_filterMap_child?,
    Item.mem_filterMap_child?, not_or] at hnodup
  have hpart (items : List Item) (hitems : ∀ item ∈ items, item ∈ c.items) (hb : .child b ∉ items) :
      items.flatMap (Item.text g) = items.flatMap (Item.text f) := by
    apply List.flatMap_congr
    intro item hm
    cases item with
    | token t => rfl
    | child k =>
      apply hsame k ((mem_children_iff c k).mpr (hitems _ hm))
      rintro rfl
      exact hb hm
  have hfront := hpart front (by simp +contextual [hc]) hnodup.1.1
  have hback := hpart back (by simp +contextual [hc]) hnodup.1.2
  refine ⟨back.flatMap (Item.text f), ?_, ?_⟩
  · rw [render_eq_items, hc]
    simp [Item.text]
  · rw [render_eq_items, hc', ← hfront, ← hback]
    simp [Item.text]

/-- `pre` is the text of `a` in front of what stands below it at `x`. -/
inductive Document.Front (d : Document) : NodeId → NodeId → List Char → Prop where
  | refl (x : NodeId) : Front d x x []
  | head {a b x : NodeId} {node : Node} {front back : List Item} {pre : List Char}
      (hget : d.get? a = some node) (hitems : node.content.items = front ++ .child b :: back)
      (h : Front d b x pre) :
      Front d a x (front.flatMap (Item.text d.text) ++ pre)

/-! ## Texts after a replacement -/

namespace Document.Replaced

variable {d d' : Document} {tops : List NodeId} {old parent a c x : NodeId} {new : Node}

theorem not_gone_child (hf : d.Forest tops) (h : d.Replaced d' old new parent)
    (hc : c ∈ d.children a) (hold : c ≠ old) (ha : ¬ d.Gone old new a) : ¬ d.Gone old new c := by
  by_cases hnew : c ∈ new.children
  · exact h.not_gone_adopted hf hnew
  · rw [gone_child_iff hf hc hold hnew]
    exact ha

theorem text_apart (hf : d.Forest tops) (h : d.Replaced d' old new parent) (hg : d'.Grounded)
    (hlive : d.isLive x = true) (hgone : ¬ d.Gone old new x) (hx : ¬ d.Below x parent) :
    d'.text x = d.text x := by
  apply text_congr hf.grounded hg (S := fun x => d.isLive x = true ∧
    ¬ d.Gone old new x ∧ ¬ d.Below x parent)
    _ ⟨hlive, hgone, hx⟩
  rintro a ⟨hlive, hgone, ha⟩
  have hpar : a ≠ parent := by
    rintro rfl
    exact ha (.refl d a)
  refine ⟨h.get?_kept (ne_size_of_isLive hlive) hgone hpar, ?_⟩
  intro c hc
  have hold : c ≠ old := by
    rintro rfl
    exact hpar (hf.parent_unique hc (h.old_mem hf))
  exact ⟨hf.isLive_of_child hc, h.not_gone_child hf hc hold hgone, fun hb => ha (.head hc hb)⟩

theorem not_gone_above (hf : d.Forest tops) (h : d.Replaced d' old new parent)
    (ha : d.Below a parent) :
    ¬ d.Gone old new a :=
  fun hgone => hf.grounded.not_below_of_child (h.old_mem hf) (hgone.below.trans ha)

theorem text_new (hf : d.Forest tops) (h : d.Replaced d' old new parent) (hg : d'.Grounded)
    (hleaf : ∀ c ∈ new.children, d.parent? c = none → d.children c = []) :
    d'.text d.slots.size = new.content.render d.text := by
  rw [hg.text_eq_render h.get?_new]
  apply Content.render_congr
  intro c hc
  obtain ⟨hlive, hkid | ⟨hnone, -⟩⟩ := h.adopts c hc
  · apply h.text_apart hf hg hlive (h.not_gone_adopted hf hc)
    intro hb
    exact hf.grounded.not_below_of_child hkid (hb.tail (h.old_mem hf))
  · apply h.text_apart hf hg hlive (h.not_gone_adopted hf hc)
    intro hb
    have hold := hb.tail (h.old_mem hf)
    rcases hold.cases_head with rfl | ⟨b, hb, -⟩
    · rw [h.held] at hnone
      simp at hnone
    · rw [hleaf c hc hnone] at hb
      simp at hb

theorem text_front (hf : d.Forest tops) (h : d.Replaced d' old new parent) (hg : d'.Grounded)
    (ha : d.Below a parent) :
    ∃ pre post, d.Front a old pre ∧ d.text a = pre ++ d.text old ++ post ∧
      d'.text a = pre ++ d'.text d.slots.size ++ post := by
  -- From the parent upwards: at each node one child holds the place, and the others keep their
  -- texts.
  induction ha using Relation.ReflTransGen.head_induction_on with
  | refl =>
    obtain ⟨node, hget, hget'⟩ := h.get?_parent hf
    have hkids := children_of_get? hget
    have hmem : old ∈ node.content.children := by rw [← hkids]; exact h.old_mem hf
    obtain ⟨front, back, hitems, hitems'⟩ := Content.items_redirect d.slots.size hmem
    rw [hf.grounded.text_eq_render hget, hg.text_eq_render hget']
    obtain ⟨post, hfocus, hfocus'⟩ :=
      Content.render_focus (f := d.text) (g := d'.text) hitems hitems'
      (by rw [← hkids]; exact hf.children_nodup parent) (by
        intro k hk hne
        rw [← hkids] at hk
        exact h.text_apart hf hg (hf.isLive_of_child hk)
          (h.not_gone_child hf hk hne (h.not_gone_parent hf))
          (hf.grounded.not_below_of_child hk))
    have hfront := Front.head hget hitems (.refl old)
    rw [List.append_nil] at hfront
    exact ⟨_, post, hfront, hfocus, hfocus'⟩
  | @head a b hab hb ih =>
    obtain ⟨pre, post, hfront, htext, htext'⟩ := ih
    have hgone := h.not_gone_above hf (Below.head hab hb)
    have hpar : a ≠ parent := by
      rintro rfl
      exact hf.grounded.not_below_of_child hab hb
    have hlive := isLive_of_mem_children hab
    obtain ⟨node, hget⟩ := isLive_iff.mp hlive
    have hget' : d'.get? a = some node :=
      (h.get?_kept (ne_size_of_isLive hlive) hgone hpar).trans hget
    have hkids := children_of_get? hget
    obtain ⟨front, back, hitems⟩ := List.append_of_mem
      ((Content.mem_children_iff node.content b).mp (by rw [← hkids]; exact hab))
    obtain ⟨post', hfocus, hfocus'⟩ :=
      Content.render_focus (f := d.text) (g := d'.text) hitems hitems
      (by rw [← hkids]; exact hf.children_nodup a) (by
        intro k hk hne
        rw [← hkids] at hk
        have hold : k ≠ old := by
          rintro rfl
          exact hpar (hf.parent_unique hk (h.old_mem hf))
        apply h.text_apart hf hg (hf.isLive_of_child hk) (h.not_gone_child hf hk hold hgone)
        intro hkb
        exact hne (hf.eq_of_siblings_above hk hab hkb hb))
    refine ⟨_, post ++ post', .head hget hitems hfront, ?_, ?_⟩
    · rw [hf.grounded.text_eq_render hget, hfocus, htext]
      simp
    · rw [hg.text_eq_render hget', hfocus', htext']
      simp

theorem text_above (hf : d.Forest tops) (h : d.Replaced d' old new parent) (hg : d'.Grounded)
    (ha : d.Below a parent) :
    ∃ pre post, d.text a = pre ++ d.text old ++ post ∧
      d'.text a = pre ++ d'.text d.slots.size ++ post := by
  obtain ⟨pre, post, -, htexts⟩ := h.text_front hf hg ha
  exact ⟨pre, post, htexts⟩

end Document.Replaced

/-! ## The document after a replacement -/

/-- A replacement changes the text where the node stood and in the nodes above it, and nowhere
else. -/
theorem replace_local {source : String} {keep : Bool} {d d' : Document} {changes : List Change}
    {old id : NodeId} {new : Node} (h : Document.parse source keep = .ok d)
    (hc : ∀ c ∈ changes, c.Allowed) (hnodup : new.children.Nodup)
    (hrep : (d.after changes).document.replace old new = .ok (id, d')) :
    let before := (d.after changes).document
    before.Below d.root old ∧
      (∃ pre post, before.print = pre ++ String.ofList (before.text old) ++ post ∧
        d'.print = pre ++ String.ofList (new.content.render before.text) ++ post) ∧
      d'.text id = new.content.render before.text ∧
      ∀ x, before.isLive x = true → ¬ before.Below old x → ¬ before.Below x old →
        d'.isLive x = true ∧ d'.text x = before.text x := by
  intro before
  have hsound := sound_after h hc
  have hg : d'.Grounded := (hsound.replace hnodup hrep).forest.grounded
  have hf : before.Forest (d.root :: (d.after changes).waiting) := hsound.forest
  obtain ⟨rfl, parent, hrep⟩ := Document.replaced_of_replace hf hrep
  have hold := hrep.old_mem hf
  have hnew := hrep.text_new hf hg fun _ => hsound.leaf_of_adopted hrep
  have hbelow : before.Below d.root old := by
    apply hsound.below_root (hf.isLive_of_child hold)
    intro hwait
    exact hf.not_child_of_top (List.mem_cons_of_mem _ hwait) hold
  have habove : before.Below d.root parent := by
    apply hf.below_parent hbelow _ hold
    rintro rfl
    exact hf.not_child_of_top List.mem_cons_self hold
  refine ⟨hbelow, ?_, hnew, ?_⟩
  · obtain ⟨pre, post, htext, htext'⟩ := hrep.text_above hf hg habove
    refine ⟨String.ofList pre, String.ofList post, ?_, ?_⟩
    · rw [Document.print, hsound.root_eq, htext, String.ofList_append, String.ofList_append]
    · rw [Document.print, hrep.root, hsound.root_eq, htext', hnew,
        String.ofList_append, String.ofList_append]
  · intro x hlive hinside habove
    have hgone : ¬ before.Gone old new x := fun hgone => hinside hgone.below
    refine ⟨?_, ?_⟩
    · rw [hrep.isLive_kept (Document.ne_size_of_isLive hlive) hgone]
      exact hlive
    · exact hrep.text_apart hf hg hlive hgone fun hb => habove (hb.tail hold)

/-- After one replacement another one drops an open tag and moves a close tag to its place. -/
theorem replace_local_swapped : ∃ d d' id, Document.parse "<p>a</p><br>" false = .ok d ∧
    (d.after bodySwap).document.replace 8 ⟨⟨.start, .start⟩,
      .element 2 [7] none false⟩ = .ok (id, d') ∧
      ∃ pre post, (d.after bodySwap).document.print = pre ++ "<p>b</p>" ++ post ∧
        d'.print = pre ++ "</p>b" ++ post := by
  have hrun : (Document.parse "<p>a</p><br>" false).toOption.any (fun d =>
      let before := (d.after bodySwap).document
      decide (String.ofList (before.text 8) = "<p>b</p>" ∧
        String.ofList ((Content.element 2 [7] none false).render before.text) = "</p>b" ∧
        (before.replace 8 ⟨⟨.start, .start⟩, .element 2 [7] none false⟩).toOption.any
          (fun _ => true) = true)) =
          true := by
    decide +kernel
  obtain ⟨d, hd, hfacts⟩ := exists_ok_of_any hrun
  obtain ⟨hold, hnew, hok⟩ := of_decide_eq_true hfacts
  obtain ⟨⟨id, d'⟩, hrep, -⟩ := exists_ok_of_any hok
  obtain ⟨-, ⟨pre, post, hprint, hprint'⟩, -⟩ :=
    replace_local hd (show ∀ c ∈ bodySwap, c.Allowed by decide) (by decide) hrep
  rw [hold] at hprint
  rw [hnew] at hprint'
  exact ⟨d, d', id, hd, hrep, pre, post, hprint, hprint'⟩

end TemplateLint
