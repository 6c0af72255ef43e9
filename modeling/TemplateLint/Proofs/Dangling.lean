import Mathlib.Data.List.Dedup
import Mathlib.Logic.Equiv.Basic
import TemplateLint.Proofs.History

/-!
# Dangling children

A replacement may name a child more than once. When such a child is replaced in turn, its parent
gets the new node in the first of the places only and still names the old node in the others. Main
statement: no live node of a document names a retired one, all along a history of calls, just as
long as every node that is replaced is named once (`intact_iff_namesOnce`).
-/

namespace TemplateLint

/-! ## Each child once -/

theorem map_swap_append {old new : NodeId} {front back : List NodeId} (hold : old ∉ front ++ back)
    (hnew : new ∉ front ++ back) :
    (front ++ old :: back).map (Equiv.swap old new) = front ++ new :: back := by
  have hfix (ids : List NodeId) (hids : ids ⊆ front ++ back) :
      ids.map (Equiv.swap old new) = ids := by
    refine (List.map_congr_left fun x hx => ?_).trans (List.map_id ids)
    refine Equiv.swap_apply_of_ne_of_ne ?_ ?_
    · rintro rfl
      exact hold (hids hx)
    · rintro rfl
      exact hnew (hids hx)
  rw [List.map_append, List.map_cons, Equiv.swap_apply_left,
    hfix front (List.subset_append_left _ _), hfix back (List.subset_append_right _ _)]

theorem Content.dedup_redirect {old new : NodeId} {c : Content} (hcount : c.children.count old = 1)
    (hnew : new ∉ c.children) :
    (c.redirect old new).children.dedup = replaceFirst old new c.children.dedup := by
  have hmem : old ∈ c.children := List.count_pos_iff.mp (by omega)
  obtain ⟨front, back, hkids, hkids'⟩ := children_redirect new hmem
  obtain ⟨front', back', hdedup, hdedup'⟩ := replaceFirst_eq_append new (List.mem_dedup.mpr hmem)
  have hold : old ∉ front ++ back := by
    rw [hkids, List.count_append, List.count_cons_self] at hcount
    rw [← List.count_eq_zero, List.count_append]
    omega
  have hold' : old ∉ front' ++ back' := by
    have hnodup := c.children.nodup_dedup
    rw [hdedup, List.nodup_middle, List.nodup_cons] at hnodup
    exact hnodup.1
  have hfresh : new ∉ front ++ back := fun hx => hnew (by rw [hkids]; grind)
  have hfresh' : new ∉ front' ++ back' := fun hx => hnew (List.mem_dedup.mp (by rw [hdedup]; grind))
  rw [hkids', hdedup', ← map_swap_append hold hfresh,
    ← map_swap_append hold' hfresh', ← hkids, ← hdedup,
    List.dedup_map_of_injective (Equiv.injective _)]

/-- The node with each of its children named once. -/
def Node.outline (n : Node) : Node := ⟨n.location, .document n.children.dedup⟩

theorem Node.children_outline (n : Node) : n.outline.children = n.children.dedup := rfl

def Slot.outline (slot : Slot) : Slot := { slot with node := slot.node.outline }

namespace Document

def outline (d : Document) : Document := { d with slots := d.slots.map Slot.outline }

variable {d d' : Document} {tops : List NodeId} {x : NodeId}

theorem slots_outline (d : Document) (x : NodeId) :
    d.outline.slots[x]? = d.slots[x]?.map Slot.outline := by
  simp [outline]

@[simp] theorem size_outline (d : Document) : d.outline.slots.size = d.slots.size := by
  simp [outline]

theorem parent?_outline (d : Document) (x : NodeId) : d.outline.parent? x = d.parent? x := by
  rw [parent?, parent?, slots_outline]
  cases d.slots[x]? <;> rfl

theorem get?_outline (d : Document) (x : NodeId) :
    d.outline.get? x = (d.get? x).map Node.outline := by
  rw [get?, get?, slots_outline]
  cases d.slots[x]? with
  | none => rfl
  | some slot => cases hlive : slot.live <;> simp [Slot.outline, hlive]

theorem isLive_outline (d : Document) (x : NodeId) : d.outline.isLive x = d.isLive x := by
  rw [isLive, isLive, get?_outline, Option.isSome_map]

theorem children_outline (d : Document) (x : NodeId) :
    d.outline.children x = (d.children x).dedup := by
  unfold children
  rw [get?_outline]
  cases d.get? x <;> rfl

theorem mem_children_outline {p c : NodeId} : c ∈ d.outline.children p ↔ c ∈ d.children p := by
  rw [children_outline, List.mem_dedup]

theorem Forest.outline (hf : d.Forest tops) : d.outline.Forest tops := by
  refine ⟨hf.tops_nodup, fun x => ?_, fun p c => ?_, fun p => ?_, ?_⟩
  · rw [isLive_outline, parent?_outline, hf.mem_tops]
  · rw [mem_children_outline, parent?_outline, hf.child_iff]
  · rw [children_outline]
    exact List.nodup_dedup _
  · obtain ⟨rank, hbound, hrank⟩ := hf.grounded
    refine ⟨rank, fun x hx => ?_, fun p c hc => hrank p c (mem_children_outline.mp hc)⟩
    rw [isLive_outline] at hx
    rw [size_outline]
    exact hbound x hx

theorem node_outline (d : Document) (x : NodeId) :
    d.outline.slots[x]?.map Slot.node = (d.slots[x]?.map Slot.node).map Node.outline := by
  rw [slots_outline, Option.map_map, Option.map_map]
  rfl

theorem reaches_outline (d : Document) (depth : Nat) (a x : NodeId) :
    d.outline.Reaches depth a x ↔ d.Reaches depth a x := by
  induction depth generalizing a with
  | zero => rfl
  | succ depth ih =>
    simp only [Reaches, node_outline, Option.map_eq_some_iff, ih]
    constructor
    · rintro ⟨_, ⟨node, hnode, rfl⟩, hx⟩
      exact ⟨node, hnode, by simpa [Node.children_outline] using hx⟩
    · rintro ⟨node, hnode, hx⟩
      exact ⟨_, ⟨node, hnode, rfl⟩, by simpa [Node.children_outline] using hx⟩

/-! ## One replacement -/

theorem outline_keptSlot {old parent id x : NodeId} {new : Node} {slot : Slot}
    (h : x = parent → slot.node.children.count old = 1 ∧ id ∉ slot.node.children) :
    (keptSlot old new parent id x slot).outline =
      keptSlot old new.outline parent id x slot.outline := by
  have hparent : (x ∈ new.outline.children) = (x ∈ new.children) := propext List.mem_dedup
  by_cases hx : x = parent
  · obtain ⟨hcount, hnew⟩ := h hx
    have hnode : ({ slot.node with content := slot.node.content.redirect old id } : Node).outline =
        { slot.node.outline with content := slot.node.outline.content.redirect old id } :=
      congrArg (fun kids => (⟨slot.node.location, .document kids⟩ : Node))
        (Content.dedup_redirect hcount hnew)
    simp only [keptSlot, Slot.outline, if_pos hx, hnode, hparent]
  · simp only [keptSlot, Slot.outline, hx, if_false, hparent]

section
variable {old id p : NodeId} {new : Node} (hf : d.outline.Forest tops)
include hf

theorem reaches_placed_outline {c : NodeId} (hc : c ∈ d.children old) (x : NodeId) :
    (d.placed new p).Reaches (d.slots.size + 1) c x ↔ d.outline.Below c x := by
  rw [← reaches_outline]
  refine hf.reaches_iff ?_ (hf.isLive_of_child (mem_children_outline.mpr hc)) (by simp) x
  intro b node _ hget
  obtain ⟨other, hother, rfl⟩ := Option.map_eq_some_iff.mp ((get?_outline d b).symm.trans hget)
  rw [node_outline, node_placed_of_get? hother]
  rfl

theorem retired_outline (h : d.replace old new = .ok (id, d')) :
    ∃ parent e, d.parent? old = some parent ∧ (∀ c ∈ new.children, d.Adoptable old c) ∧
      (d.placed new parent).Retired e (d.outline.Gone old new.outline) ∧
      d' = e.redirect parent old d.slots.size := by
  obtain ⟨-, parent, e, hheld, hadopts, hretired, rfl⟩ := retired_of_replace h
  refine ⟨parent, e, hheld, hadopts, ?_, rfl⟩
  refine hretired.mono fun x => or_congr Iff.rfl (exists_congr fun c => ?_)
  rw [mem_children_outline, Node.children_outline, List.mem_dedup]
  exact and_congr_right fun hc => and_congr_right fun _ => reaches_placed_outline hf hc x

theorem replaced_outline (h : d.replace old new = .ok (id, d'))
    (honce : ∀ parent, d.parent? old = some parent → (d.children parent).count old = 1) :
    ∃ parent, d.outline.Replaced d'.outline old new.outline parent := by
  obtain ⟨parent, e, hheld, hadopts, hretired, rfl⟩ := retired_outline hf h
  have hheld' : d.outline.parent? old = some parent := by rw [parent?_outline, hheld]
  have hnew : ¬ d.outline.Gone old new.outline d.slots.size := by
    rw [← size_outline d]
    exact hf.size_not_gone (isLive_of_parent? hheld')
  have hpar : parent ≠ d.slots.size := by
    rw [← size_outline d]
    exact hf.parent_ne_size hheld'
  refine ⟨parent, hretired.root.trans (root_placed d new parent), ?_, hheld', ?_, ?_, ?_, ?_⟩
  · simp only [size_outline, redirect, Array.size_modify]
    rw [hretired.size, size_placed]
  · intro c hc
    rw [Adoptable, isLive_outline, parent?_outline, mem_children_outline]
    exact hadopts c (List.mem_dedup.mp hc)
  · rw [size_outline, slots_outline, hretired.slots_added hnew hpar fun hc =>
      ne_size_of_isLive (hadopts _ hc).1 rfl]
    rfl
  · intro x hx
    rw [isLive_outline]
    exact hretired.isLive_gone hx
  · intro x hne hx
    rw [size_outline] at hne ⊢
    rw [slots_outline, hretired.slots_kept hne hx, slots_outline, Option.map_map, Option.map_map]
    cases hs : d.slots[x]? with
    | none => rfl
    | some slot =>
      refine congrArg some (outline_keptSlot fun hx => ?_)
      subst hx
      have hmem : old ∈ d.outline.children x := (hf.child_iff x old).mpr hheld'
      have hkids : d.children x = slot.node.children := by
        obtain ⟨node, hget⟩ := isLive_iff.mp (isLive_of_mem_children (mem_children_outline.mp hmem))
        obtain ⟨other, hother, rfl⟩ := slot_of_get? hget
        rw [hs, Option.some.injEq] at hother
        rw [children_of_get? hget, hother]
        rfl
      rw [← hkids]
      refine ⟨honce x hheld, fun hc => ?_⟩
      have hlive := hf.isLive_of_child (mem_children_outline.mpr hc)
      rw [isLive_outline] at hlive
      exact ne_size_of_isLive hlive rfl

theorem names_retired (h : d.replace old new = .ok (id, d')) (hheld : d.parent? old = some p)
    (htwice : (d.children p).count old ≠ 1) : old ∈ d'.children p ∧ d'.isLive old = false := by
  obtain ⟨parent, e, hheld', -, hretired, rfl⟩ := retired_outline hf h
  obtain rfl : parent = p := by
    rw [hheld', Option.some.injEq] at hheld
    exact hheld
  have hmem' : old ∈ d.outline.children parent :=
    (hf.child_iff parent old).mpr (by rw [parent?_outline, hheld])
  have hmem := mem_children_outline.mp hmem'
  have hgone : ¬ d.outline.Gone old new.outline parent :=
    fun hg => hf.grounded.not_below_of_child hmem' hg.below
  refine ⟨?_, hretired.isLive_gone (Or.inl rfl)⟩
  have hlive := isLive_of_mem_children hmem
  obtain ⟨slot, hs, hslot⟩ := exists_slot_of_isLive hlive
  have hget : d.get? parent = some slot.node := by simp [get?_of_slot hs, hslot]
  have hget' : (e.redirect parent old d.slots.size).get? parent =
      some { slot.node with content := slot.node.content.redirect old d.slots.size } := by
    rw [get?, hretired.slots_kept (ne_size_of_isLive hlive) hgone, hs]
    simp [keptSlot, hslot]
  rw [children_of_get? hget] at hmem htwice
  obtain ⟨front, back, hkids, hkids'⟩ := Content.children_redirect d.slots.size hmem
  rw [children_of_get? hget', hkids']
  have hother : old ∈ front ++ back := by
    rw [hkids, List.count_append, List.count_cons_self] at htwice
    rw [← List.count_pos_iff, List.count_append]
    omega
  exact List.mem_append.mpr ((List.mem_append.mp hother).imp_right (List.mem_cons_of_mem _))

end

/-- No live node names a node that is not live. -/
def Intact (d : Document) : Prop := ∀ p, ∀ c ∈ d.children p, d.isLive c = true

end Document

/-! ## Histories -/

namespace Change

/-- What is inserted has no children. A replacement may have any. -/
def InsertsLeaf : Change → Prop
  | insert node => node.children = []
  | replace _ _ => True

instance : DecidablePred InsertsLeaf
  | insert node => inferInstanceAs (Decidable (node.children = []))
  | replace _ _ => inferInstanceAs (Decidable True)

/-- If the call replaces a node, then the parent of that node names it once. -/
def NamesOnce (d : Document) : Change → Prop
  | insert _ => True
  | replace old new =>
    (d.replace old new).isOk = true → ∀ p ∈ d.parent? old, (d.children p).count old = 1

instance (d : Document) : DecidablePred (NamesOnce d)
  | insert _ => inferInstanceAs (Decidable True)
  | replace old new => inferInstanceAs (Decidable ((d.replace old new).isOk = true →
      ∀ p ∈ d.parent? old, (d.children p).count old = 1))

end Change

namespace Revision

variable {r : Revision} {root : NodeId}

def outline (r : Revision) : Revision := ⟨r.document.outline, r.waiting⟩

theorem outline_insert (d : Document) (node : Node) :
    (d.insert node).2.outline = (d.outline.insert node.outline).2 := by
  simp [Document.insert, Document.outline, Slot.outline]

theorem Sound.intact (h : r.outline.Sound root) : r.document.Intact := by
  intro p c hc
  rw [← Document.isLive_outline]
  exact h.forest.isLive_of_child (Document.mem_children_outline.mpr hc)

theorem Sound.step_outline (h : r.outline.Sound root) {c : Change} (hc : c.InsertsLeaf)
    (honce : c.NamesOnce r.document) : (r.step c).outline.Sound root := by
  cases c with
  | insert node =>
    have hleaf : node.outline.children = [] := by
      rw [Node.children_outline, hc]
      rfl
    have hsound := Sound.insert h hleaf
    simp only [outline, Document.size_outline, ← outline_insert] at hsound
    exact hsound
  | replace old new =>
    unfold Revision.step
    cases hr : (Change.replace old new).perform.run r.document with
    | error e d' =>
      simp only [(Change.eq_of_run_error hr).1]
      exact h
    | ok id d' =>
      have hrep := Change.run_replace_ok.mp hr
      obtain ⟨parent, hreplaced⟩ :=
        Document.replaced_outline h.forest hrep (honce (by rw [hrep]; rfl))
      have hnodup : new.outline.children.Nodup := List.nodup_dedup _
      have hsound := Sound.replaced h hnodup hreplaced
      simp only [Node.children_outline, List.mem_dedup] at hsound
      exact hsound

theorem Sound.namesOnce (h : r.outline.Sound root) {c : Change}
    (hintact : (r.step c).document.Intact) :
    c.NamesOnce r.document := by
  cases c with
  | insert node => trivial
  | replace old new =>
    intro hok p hheld
    cases hrep : r.document.replace old new with
    | error e =>
      rw [hrep] at hok
      cases hok
    | ok made =>
      rw [Revision.step, Change.run_replace_ok.mpr hrep] at hintact
      by_contra htwice
      obtain ⟨hmem, hdead⟩ := Document.names_retired h.forest hrep hheld htwice
      have hlive := hintact p old hmem
      rw [hdead] at hlive
      cases hlive

end Revision

/-! ## Children that stay named -/

variable {source : String} {keep : Bool} {d : Document} {changes : List Change}

/-- No live node ever names a retired one just when each node is named once at its replacement. -/
theorem intact_iff_namesOnce (h : Document.parse source keep = .ok d)
    (hc : ∀ c ∈ changes, c.InsertsLeaf) :
    (∀ n, (d.after (changes.take n)).document.Intact) ↔
      ∀ n (hn : n < changes.length), changes[n].NamesOnce (d.after (changes.take n)).document := by
  have hstart : (Revision.outline ⟨d, []⟩).Sound d.root :=
    ⟨rfl, (forest_of_parse h).outline, by simp [Revision.outline]⟩
  apply @Revision.forall_run_iff (·.outline.Sound d.root) (·.document.Intact) fun c r =>
    c.NamesOnce r.document
  · exact fun r hr => hr.intact
  · exact fun r c hmem hr honce => hr.step_outline (hc c hmem) honce
  · exact fun r c _ hr hintact => hr.namesOnce hintact
  · exact hstart

/-- The paragraph of `<p>a</p>` comes to name its text twice. The text is replaced after the calls
in `between`. -/
def doubledText (between : List Change) : List Change :=
  let nowhere : Location := ⟨.start, .start⟩
  .replace 3 ⟨nowhere, .element 0 [1, 1] (some 2) false⟩ :: between ++
    [.replace 1 ⟨nowhere, .text ⟨"b", nowhere⟩⟩]

/-- The paragraph is replaced again and names its text once before the text is replaced. -/
def undoubledText : List Change :=
  doubledText [.replace 5 ⟨⟨.start, .start⟩, .element 0 [1] (some 2) false⟩]

theorem intact_iff_namesOnce_undoubled : ∃ d, Document.parse "<p>a</p>" false = .ok d ∧
    (∀ c ∈ undoubledText, c.InsertsLeaf) ∧
    (∀ n (hn : n < undoubledText.length),
      undoubledText[n].NamesOnce (d.after (undoubledText.take n)).document) ∧
    (d.after (undoubledText.take 1)).document.children 5 = [0, 1, 1, 2] ∧
    (d.after undoubledText).document.children 6 = [0, 7, 2] ∧
    (d.after undoubledText).document.isLive 1 = false ∧
    (d.after undoubledText).document.Intact := by
  have hrun : (Document.parse "<p>a</p>" false).toOption.any (fun d =>
      decide ((∀ n (hn : n < undoubledText.length),
          undoubledText[n].NamesOnce (d.after (undoubledText.take n)).document) ∧
        (d.after (undoubledText.take 1)).document.children 5 = [0, 1, 1, 2] ∧
        (d.after undoubledText).document.children 6 = [0, 7, 2] ∧
        (d.after undoubledText).document.isLive 1 = false)) = true := by
    decide +kernel
  obtain ⟨d, hd, hfacts⟩ := exists_ok_of_any hrun
  obtain ⟨honce, hdoubled, hkids, hdead⟩ := of_decide_eq_true hfacts
  have hc : ∀ c ∈ undoubledText, c.InsertsLeaf := by decide
  exact ⟨d, hd, hc, honce, hdoubled, hkids, hdead, (intact_iff_namesOnce hd hc).mpr honce 3⟩

/-- The paragraph gets the new text in its first place and keeps the retired one in the second. -/
theorem doubledText_dangling : ∃ d, Document.parse "<p>a</p>" false = .ok d ∧
    (∀ c ∈ doubledText [], c.InsertsLeaf) ∧
    let e := (d.after (doubledText [])).document
    e.children 5 = [0, 6, 1, 2] ∧ e.isLive 1 = false ∧ ¬ e.Intact := by
  have hrun : (Document.parse "<p>a</p>" false).toOption.any (fun d =>
      let e := (d.after (doubledText [])).document
      decide (e.children 5 = [0, 6, 1, 2] ∧ e.isLive 1 = false)) = true := by
    decide +kernel
  obtain ⟨d, hd, hfacts⟩ := exists_ok_of_any hrun
  obtain ⟨hkids, hdead⟩ := of_decide_eq_true hfacts
  refine ⟨d, hd, by decide, hkids, hdead, fun hintact => ?_⟩
  have hlive := hintact 5 1 (by rw [hkids]; decide)
  rw [hdead] at hlive
  cases hlive

end TemplateLint
