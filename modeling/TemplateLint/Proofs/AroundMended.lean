import TemplateLint.Proofs.Locality
import TemplateLint.Proofs.Reports

/-!
# Around mended nodes

What the fixes of some nodes leave as it was. Main statements: a walk comes to the same nodes in the
same order, each where it now stands (`Tracks.flatMap_visits`), and around a node that has all the
mended ones below it the text stays (`Tracks.text_around`).
-/

namespace TemplateLint

/-- The visit of the same node where it now stands, as the fixes left it. -/
def Visit.moved (d : Document) (fixed : List NodeId) (now : NodeId → NodeId) (v : Visit) : Visit :=
  ⟨now v.id, (d.mendAt fixed v.id v.node).mapChildren now, v.ancestors.map now⟩

/-- The visit is of a node that is present, below nodes that are. -/
structure Visit.Shows (d : Document) (present : NodeId → Prop) (v : Visit) : Prop where
  here : d.get? v.id = some v.node
  stays : present v.id
  above : ∀ a ∈ v.ancestors, present a

namespace Tracks

variable {d e : Document} {fixed : List NodeId} {present : NodeId → Prop}
  {now : NodeId → NodeId} {a t x : NodeId}

/-! ## Walks -/

section Walks

variable {skip skip' : Visit → Bool} (h : Tracks d e fixed present now)
  (hskip : ∀ v, v.Shows d present → skip' (v.moved d fixed now) = skip v)
  (hkids : ∀ v, v.Shows d present → skip v = false →
    (d.mendAt fixed v.id v.node).children = v.node.children)
include h hskip hkids

theorem visitsTo_eq (depth : Nat) {ancestors : List NodeId}
    (habove : ∀ a ∈ ancestors, present a) (hx : present x) :
    e.visitsTo skip' depth (ancestors.map now) (now x) =
        (d.visitsTo skip depth ancestors x).map (Visit.moved d fixed now) ∧
      ∀ v ∈ d.visitsTo skip depth ancestors x, v.Shows d present := by
  induction depth generalizing ancestors x with
  | zero => simp [Document.visitsTo]
  | succ depth ih =>
    obtain ⟨n, hn, hget, hpresent⟩ := h.node x hx
    have hshows : Visit.Shows d present ⟨x, n, ancestors⟩ := ⟨hn, hx, habove⟩
    have hself : (⟨now x, (d.mendAt fixed x n).mapChildren now, ancestors.map now⟩ : Visit) =
        Visit.moved d fixed now ⟨x, n, ancestors⟩ := rfl
    rw [Document.visitsTo_succ hn, Document.visitsTo_succ hget, hself, hskip _ hshows]
    cases hs : skip ⟨x, n, ancestors⟩ with
    | true => simp [hshows]
    | false =>
      have hsame : (d.mendAt fixed x n).children = n.children := hkids _ hshows hs
      rw [hsame] at hpresent
      have hbelow (c : NodeId) (hc : c ∈ n.children) :=
        ih (List.forall_mem_cons.mpr ⟨hx, habove⟩) (hpresent c hc)
      simp only [Bool.false_eq_true, if_false, List.map_cons, List.map_flatMap,
        Node.children_mapChildren, hsame, List.flatMap_map]
      refine ⟨congrArg _ (List.flatMap_congr fun c hc => (hbelow c hc).1),
        List.forall_mem_cons.mpr ⟨hshows, ?_⟩⟩
      intro v hv
      obtain ⟨c, hc, hv⟩ := List.mem_flatMap.mp hv
      exact (hbelow c hc).2 v hv

theorem flatMap_visits (hg : d.Grounded) {α : Type} {f f' : Visit → List α} {keep : α → Bool}
    (hf : ∀ v, v.Shows d present → f' (v.moved d fixed now) = (f v).filter keep) :
    (e.visits skip').flatMap f' = ((d.visits skip).flatMap f).filter keep := by
  obtain ⟨hroot, hnow⟩ := h.root
  obtain ⟨n, hn, -⟩ := h.node d.root hroot
  obtain ⟨rank, hbound, hrank⟩ := hg
  have hlow := hbound d.root (Document.isLive_of_get? hn)
  have hdepth : d.visitsTo skip e.slots.size [] d.root = d.visits skip := by
    rw [Document.visits_eq]
    exact Document.visitsTo_eq_of_rank hrank (Nat.lt_of_lt_of_le hlow h.size) hlow
  obtain ⟨hvisits, hshows⟩ :=
    h.visitsTo_eq hskip hkids e.slots.size (List.forall_mem_nil present) hroot
  rw [hdepth] at hvisits hshows
  rw [List.map_nil, hnow, ← Document.visits_eq] at hvisits
  rw [hvisits, List.flatMap_map, List.filter_flatMap]
  exact List.flatMap_congr fun v hv => hf v (hshows v hv)

end Walks

/-! ## Texts -/

theorem text_untouched (h : Tracks d e fixed present now) (hg : d.Grounded) (hx : present x)
    (hfresh : ∀ y, d.Below x y → y ∉ fixed) : e.text (now x) = d.text x := by
  revert hx hfresh
  induction x using hg.induct with
  | h x ih =>
    intro hx hfresh
    obtain ⟨n, hn, hget, hpresent⟩ := h.node x hx
    have hsame : d.mendAt fixed x n = n := if_neg (hfresh x (.refl d x))
    rw [hsame] at hget hpresent
    rw [h.forest.grounded.text_eq_render hget, hg.text_eq_render hn, Node.mapChildren,
      Content.render_mapChildren]
    apply Content.render_congr
    intro c hc
    have hchild : c ∈ d.children x := by
      rw [Document.children_of_get? hn]
      exact hc
    exact ih c hchild (hpresent c hc) fun y hy => hfresh y (.head hchild hy)

theorem text_mended (h : Tracks d e [t] present now) (hg : d.Grounded) (ht : present t)
    {n : Node} (hn : d.get? t = some n) : e.text (now t) = (d.mended n).content.render d.text := by
  obtain ⟨hget, hpresent⟩ := h.get? ht hn
  rw [Document.mendAt, if_pos List.mem_cons_self] at hget hpresent
  rw [h.forest.grounded.text_eq_render hget, Node.mapChildren, Content.render_mapChildren]
  apply Content.render_congr
  intro c hc
  refine h.text_untouched hg (hpresent c hc) fun y hy hmem => ?_
  rw [List.mem_singleton.mp hmem] at hy
  refine hg.not_below_of_child ?_ hy
  rw [Document.children_of_get? hn]
  exact (d.children_mended_sublist n).subset hc

/-- Above a node with all that is mended below it, the texts change where it stands, and nowhere
else. -/
theorem text_around (h : Tracks d e fixed present now) {tops : List NodeId} (hf : d.Forest tops)
    (hfixed : ∀ x ∈ fixed, d.Below t x) (ha : present a) (hb : d.Below a t) :
    present t ∧ ∃ pre post, d.text a = pre ++ d.text t ++ post ∧
      e.text (now a) = pre ++ e.text (now t) ++ post := by
  -- From the node upwards: at each node one child holds the place, and the others keep their texts.
  induction hb using Relation.ReflTransGen.head_induction_on with
  | refl => exact ⟨ha, [], [], by simp, by simp⟩
  | @head a b hab hbt ih =>
    obtain ⟨n, hn, hget, hpresent⟩ := h.node a ha
    have hkids := Document.children_of_get? hn
    have hchild : b ∈ n.content.children := by
      rw [← hkids]
      exact hab
    have hsame : d.mendAt fixed a n = n :=
      if_neg fun hmem => hf.grounded.not_below_of_child hab (hbt.trans (hfixed a hmem))
    rw [hsame] at hget hpresent
    obtain ⟨ht, pre, post, htext, htext'⟩ := ih (hpresent b hchild)
    obtain ⟨front, back, hitems⟩ :=
      List.append_of_mem ((Content.mem_children_iff n.content b).mp hchild)
    obtain ⟨post', hfocus, hfocus'⟩ :=
      Content.render_focus (f := d.text) (g := e.text ∘ now) hitems hitems
      (by rw [← hkids]; exact hf.children_nodup a) (by
        intro k hk hne
        refine h.text_untouched hf.grounded (hpresent k hk) fun y hy hmem => hne ?_
        rw [← hkids] at hk
        exact hf.eq_of_siblings_above hk hab hy (hbt.trans (hfixed y hmem)))
    refine ⟨ht, front.flatMap (Item.text d.text) ++ pre, post ++ post', ?_, ?_⟩
    · rw [hf.grounded.text_eq_render hn, hfocus, htext]
      simp
    · rw [h.forest.grounded.text_eq_render hget, Node.mapChildren,
        Content.render_mapChildren, hfocus', Function.comp_apply, htext']
      simp

theorem print_ne (h : Tracks d e fixed present now) (hf : d.Forest [d.root])
    (hfixed : ∀ x ∈ fixed, d.Below t x) (hlive : d.isLive t = true)
    (hne : present t → e.text (now t) ≠ d.text t) : e.print.toList ≠ d.text d.root := by
  obtain ⟨ht, pre, post, htext, htext'⟩ :=
    h.text_around hf hfixed h.root.1 (hf.below_of_top_eq hlive)
  rw [Document.print, String.toList_ofList, ← h.root.2, htext, htext']
  simpa using hne ht

end Tracks

end TemplateLint
