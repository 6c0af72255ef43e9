import TemplateLint.Proofs.FullPass
import TemplateLint.Proofs.Replace

/-!
# Trees below the root

What calls on a document rely on is a tree below its root; slots elsewhere do not matter. Main
statement: a document is such a tree if it agrees, from the root down, with a forest that has its
links (`Forest.isTree`).
-/

namespace TemplateLint

namespace Document

/-- What is reached from the root is a tree with right links. -/
structure IsTree (d : Document) : Prop where
  live : ∀ x, d.Below d.root x → d.isLive x = true
  acyclic : ∀ p c, d.Below d.root p → c ∈ d.children p → ¬ d.Below c p
  parent : ∀ p c, d.Below d.root p → c ∈ d.children p → d.parent? c = some p
  single : ∀ p q c, d.Below d.root p → d.Below d.root q → c ∈ d.children p →
    c ∈ d.children q → p = q
  once : ∀ p, d.Below d.root p → (d.children p).Nodup
  walk_nodup : (d.allVisits.map Visit.id).Nodup
  mem_walk : ∀ x, x ∈ d.allVisits.map Visit.id ↔ d.Below d.root x
  text : ∀ p node, d.Below d.root p → d.get? p = some node → d.text p = node.content.render d.text
  retire : ∀ p x, d.Below d.root p →
    ((d.retire p).isLive x = true ↔ d.isLive x = true ∧ ¬ d.Below p x)

variable {d d' : Document} {a c x : NodeId} {node : Node} {tops : List NodeId}

theorem Forest.ids_visits_nodup (hf : d.Forest tops) (skip : Visit → Bool) :
    ((d.visits skip).map Visit.id).Nodup := by
  have hnodup := (hf.nodup_reach skip d.slots.size [] d.root).1
  rw [← visits_eq] at hnodup
  rw [List.map_eq_flatMap]
  exact hnodup.sublist (List.Sublist.flatMap_right _ fun v _ => v.self_sublist_reach skip)

theorem mem_visitsTo_of_below {rank : NodeId → Nat}
    (hrank : ∀ p, ∀ c ∈ d.children p, rank c < rank p) {depth : Nat} (hdepth : rank a < depth)
    (ancestors : List NodeId) (hb : d.Below a x) (hx : d.isLive x = true) :
    x ∈ (d.visitsTo (fun _ => false) depth ancestors a).map Visit.id := by
  induction depth generalizing a ancestors with
  | zero => omega
  | succ depth ih =>
    rcases hb.cases_head with rfl | ⟨b, hb, hbx⟩
    · obtain ⟨node, hget⟩ := isLive_iff.mp hx
      simp [visitsTo_succ hget]
    · obtain ⟨node, hget⟩ := isLive_iff.mp (isLive_of_mem_children hb)
      have hlt := hrank a b hb
      have hmem := ih (by omega) (a :: ancestors) hbx
      rw [children_of_get? hget] at hb
      rw [visitsTo_succ hget]
      simp only [Bool.false_eq_true, if_false, List.map_cons, List.map_flatMap,
        List.mem_cons, List.mem_flatMap]
      exact Or.inr ⟨b, hb, hmem⟩

theorem Forest.mem_allVisits_iff (hf : d.Forest tops) (hroot : d.isLive d.root = true) :
    x ∈ d.allVisits.map Visit.id ↔ d.Below d.root x := by
  rw [allVisits, visits_eq]
  constructor
  · intro hx
    apply (hf.nodup_reach (fun _ => false) d.slots.size [] d.root).2
    rw [List.map_eq_flatMap] at hx
    exact hx
  · intro hx
    obtain ⟨rank, hbound, hrank⟩ := hf.grounded
    exact mem_visitsTo_of_below hrank (hbound _ hroot) [] hx (hf.isLive_of_below hx hroot)

theorem Retired.isLive_iff {gone : NodeId → Prop} (h : d.Retired d' gone) :
    d'.isLive x = true ↔ d.isLive x = true ∧ ¬ gone x := by
  by_cases hx : gone x
  · rw [isLive, get?, h.dropped x hx]
    cases d.slots[x]? <;> simp [hx]
  · rw [isLive, isLive, get?, get?, h.kept x hx]
    simp [hx]

/-! ## Documents that agree below a node -/

def AgreeBelow (d d' : Document) (a : NodeId) : Prop := ∀ x, d.Below a x → d'.get? x = d.get? x

namespace AgreeBelow

theorem self (h : d.AgreeBelow d' a) : d'.get? a = d.get? a := h a (.refl d a)

theorem below (h : d.AgreeBelow d' a) (hx : d.Below a x) : d.AgreeBelow d' x :=
  fun y hy => h y (hx.trans hy)

theorem child (h : d.AgreeBelow d' a) (hget : d.get? a = some node) (hc : c ∈ node.children) :
    d.AgreeBelow d' c := by
  apply h.below
  exact .head (by rw [children_of_get? hget]; exact hc) (.refl d c)

theorem children_eq (h : d.AgreeBelow d' a) : d'.children a = d.children a := by
  rw [children, children, h.self]

theorem below_iff (h : d.AgreeBelow d' a) : d'.Below a x ↔ d.Below a x := by
  constructor
  · intro hb
    induction hb with
    | refl => exact .refl d a
    | tail _ hc ih =>
      rw [(h.below ih).children_eq] at hc
      exact ih.tail hc
  · intro hb
    induction hb with
    | refl => exact .refl d' a
    | tail hb hc ih =>
      rw [← (h.below hb).children_eq] at hc
      exact ih.tail hc

theorem visitsTo_eq (h : d.AgreeBelow d' a) (skip : Visit → Bool) (depth : Nat)
    (ancestors : List NodeId) :
    d'.visitsTo skip depth ancestors a = d.visitsTo skip depth ancestors a := by
  induction depth generalizing a ancestors with
  | zero => rfl
  | succ depth ih =>
    cases hget : d.get? a with
    | none => rw [visitsTo_of_none hget, visitsTo_of_none (h.self.trans hget)]
    | some node =>
      have hkids : node.children.flatMap (d'.visitsTo skip depth (a :: ancestors)) =
          node.children.flatMap (d.visitsTo skip depth (a :: ancestors)) := by
        apply List.flatMap_congr
        intro c hc
        exact ih (h.child hget hc) _
      rw [visitsTo_succ hget, visitsTo_succ (h.self.trans hget), hkids]

theorem textTo_eq (h : d.AgreeBelow d' a) (depth : Nat) : d'.textTo depth a = d.textTo depth a := by
  induction depth generalizing a with
  | zero => rfl
  | succ depth ih =>
    simp only [textTo, h.self]
    cases hget : d.get? a with
    | none => rfl
    | some node =>
      apply Content.render_congr
      intro c hc
      exact ih (h.child hget hc)

end AgreeBelow

/-- A document is a tree if it has the links of a forest and agrees with it below the root. -/
theorem Forest.isTree (hf : d.Forest tops) (htop : d.root ∈ tops) (h : d.AgreeBelow d' d.root)
    (hroot : d'.root = d.root) (hsize : d'.slots.size = d.slots.size)
    (hparent : ∀ x, d'.parent? x = d.parent? x) : d'.IsTree := by
  have hlive := ((hf.mem_tops d.root).mp htop).1
  have hbelow {x : NodeId} : d'.Below d'.root x ↔ d.Below d.root x := by rw [hroot, h.below_iff]
  have hkids {p : NodeId} (hp : d'.Below d'.root p) : d'.children p = d.children p :=
    (h.below (hbelow.mp hp)).children_eq
  have hvisits : d'.allVisits = d.allVisits := by
    rw [allVisits, allVisits, visits_eq, visits_eq, hroot, hsize]
    exact h.visitsTo_eq _ _ _
  have htext {p : NodeId} (hp : d.Below d.root p) : d'.text p = d.text p := by
    rw [text_eq, text_eq, hsize, (h.below hp).textTo_eq]
  refine ⟨?_, ?_, ?_, ?_, ?_, ?_, ?_, ?_, ?_⟩
  · intro x hx
    rw [isLive, h x (hbelow.mp hx)]
    exact hf.isLive_of_below (hbelow.mp hx) hlive
  · intro p c hp hc
    rw [hkids hp] at hc
    rw [(h.below ((hbelow.mp hp).tail hc)).below_iff]
    exact hf.grounded.not_below_of_child hc
  · intro p c hp hc
    rw [hkids hp] at hc
    rw [hparent]
    exact (hf.child_iff p c).mp hc
  · intro p q c hp hq hc hc'
    rw [hkids hp] at hc
    rw [hkids hq] at hc'
    exact hf.parent_unique hc hc'
  · intro p hp
    rw [hkids hp]
    exact hf.children_nodup p
  · rw [hvisits]
    exact hf.ids_visits_nodup _
  · intro x
    rw [hvisits, hf.mem_allVisits_iff hlive, hbelow]
  · intro p node hp hget
    have hp := hbelow.mp hp
    rw [h p hp] at hget
    rw [htext hp, hf.grounded.text_eq_render hget]
    apply Content.render_congr
    intro c hc
    rw [← children_of_get? hget] at hc
    exact (htext (hp.tail hc)).symm
  · intro p x hp
    have hp := hbelow.mp hp
    have hreaches : d'.Reaches d'.slots.size p x ↔ d.Below p x := by
      refine hf.reaches_iff ?_ (hf.isLive_of_below hp hlive) (Nat.le_of_eq hsize.symm) x
      intro b node hb hget
      rw [← h b (hp.trans hb)] at hget
      exact node_of_get? hget
    rw [retire, (retired_retireTo _ d' p).isLive_iff, hreaches, (h.below hp).below_iff]

end Document

end TemplateLint
