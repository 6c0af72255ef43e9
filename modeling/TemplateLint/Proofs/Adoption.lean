import TemplateLint.Proofs.History
import TemplateLint.Proofs.Trees

/-!
# Adopted subtrees

A node may be inserted with children, but only a replacement links children to their parent, and
only those that it names itself. So a node with children that a replacement adopts is in the tree
while its children are not linked to it. Main statement: a parsed document stays a tree through a
history of calls just as long as its replacements adopt no such node (`isTree_iff_adoptsLeaves`).
-/

namespace TemplateLint

/-! ## Without the children of some nodes -/

/-- The node itself if it has no children, else an empty one in its place. -/
def Node.stripped (n : Node) : Node := if n.children = [] then n else ⟨n.location, .document []⟩

theorem Node.children_stripped (n : Node) : n.stripped.children = [] := by
  unfold stripped
  split
  · assumption
  · rfl

theorem Node.stripped_of_leaf {n : Node} (h : n.children = []) : n.stripped = n := if_pos h

def Slot.strip (ids : List NodeId) (x : NodeId) (slot : Slot) : Slot :=
  if x ∈ ids then { slot with node := slot.node.stripped } else slot

namespace Document

/-- The document with the children of these nodes left out. -/
def strip (d : Document) (ids : List NodeId) : Document :=
  { d with slots := d.slots.mapIdx (Slot.strip ids) }

variable {d d' : Document} {ids tops : List NodeId} {x : NodeId}

theorem slots_strip (d : Document) (ids : List NodeId) (x : NodeId) :
    (d.strip ids).slots[x]? = d.slots[x]?.map (Slot.strip ids x) := by
  rw [strip, Array.getElem?_mapIdx]

@[simp] theorem size_strip (d : Document) (ids : List NodeId) :
    (d.strip ids).slots.size = d.slots.size := by
  simp [strip]

theorem parent?_strip (d : Document) (ids : List NodeId) (x : NodeId) :
    (d.strip ids).parent? x = d.parent? x := by
  rw [parent?, parent?, slots_strip]
  cases d.slots[x]? with
  | none => rfl
  | some slot => by_cases hx : x ∈ ids <;> simp [Slot.strip, hx]

theorem get?_strip (d : Document) (ids : List NodeId) (x : NodeId) :
    (d.strip ids).get? x = (d.get? x).map fun node => if x ∈ ids then node.stripped else node := by
  rw [get?, get?, slots_strip]
  cases d.slots[x]? with
  | none => rfl
  | some slot =>
    unfold Slot.strip
    by_cases hx : x ∈ ids <;> cases hlive : slot.live <;> simp [hx, hlive]

theorem get?_strip_of_not_mem (hx : x ∉ ids) : (d.strip ids).get? x = d.get? x := by
  rw [get?_strip]
  simp [hx]

theorem isLive_strip (d : Document) (ids : List NodeId) (x : NodeId) :
    (d.strip ids).isLive x = d.isLive x := by
  rw [isLive, isLive, get?_strip, Option.isSome_map]

theorem children_strip_of_mem (hx : x ∈ ids) : (d.strip ids).children x = [] := by
  unfold children
  rw [get?_strip]
  cases d.get? x with
  | none => rfl
  | some node => simp [hx, Node.children_stripped]

theorem children_strip_of_not_mem (hx : x ∉ ids) : (d.strip ids).children x = d.children x := by
  rw [children, children, get?_strip_of_not_mem hx]

theorem Below.of_strip {a : NodeId} (h : (d.strip ids).Below a x) : d.Below a x := by
  induction h with
  | refl => exact .refl d a
  | @tail b c _ hc ih =>
    by_cases hb : b ∈ ids
    · rw [children_strip_of_mem hb] at hc
      cases hc
    · rw [children_strip_of_not_mem hb] at hc
      exact ih.tail hc

theorem eq_of_slots {e : Document} (hroot : d.root = e.root)
    (h : ∀ x : NodeId, d.slots[x]? = e.slots[x]?) : d = e := by
  have hslots : d.slots = e.slots := Array.ext_getElem? h
  cases d
  cases e
  simp_all

theorem strip_insert (d : Document) (node : Node) (ids : List NodeId) :
    (d.insert node).2.strip (ids ++ [d.slots.size]) = ((d.strip ids).insert node.stripped).2 := by
  refine eq_of_slots rfl fun x => ?_
  rw [slots_strip, slots_insert, slots_insert, size_strip, slots_strip]
  by_cases hx : x = d.slots.size
  · simp [hx, Slot.strip]
  · have hstrip : Slot.strip (ids ++ [d.slots.size]) x = Slot.strip ids x := by
      funext slot
      simp [Slot.strip, hx]
    rw [if_neg hx, if_neg hx, hstrip]

theorem strip_nil (d : Document) : d.strip [] = d := by
  refine eq_of_slots rfl fun x => ?_
  rw [slots_strip]
  cases d.slots[x]? <;> simp [Slot.strip]

theorem strip_filter {p : NodeId → Bool}
    (h : ∀ x ∈ ids, p x = false → ∀ node,
      d.slots[x]?.map Slot.node = some node → node.children = []) :
    d.strip (ids.filter p) = d.strip ids := by
  refine eq_of_slots rfl fun x => ?_
  rw [slots_strip, slots_strip]
  cases hs : d.slots[x]? with
  | none => rfl
  | some slot =>
    simp only [Option.map_some, Slot.strip, List.mem_filter]
    by_cases hx : x ∈ ids
    · cases hp : p x with
      | true => simp [hx]
      | false => simp [hx, Node.stripped_of_leaf (h x hx hp slot.node (by rw [hs]; rfl))]
    · simp [hx]

/-! ## Replacements -/

section
variable {old p c : NodeId} {new : Node} (hf : (d.strip ids).Forest tops)
  (hids : ∀ x ∈ ids, x ∈ tops)
include hf hids

theorem child_not_stripped (hc : c ∈ (d.strip ids).children p) : c ∉ ids :=
  fun hmem => hf.not_child_of_top (hids c hmem) hc

theorem size_not_stripped : d.slots.size ∉ ids := by
  intro hmem
  have hlive := ((hf.mem_tops _).mp (hids _ hmem)).1
  rw [isLive_strip] at hlive
  exact ne_size_of_isLive hlive rfl

theorem reaches_strip (hc : c ∈ (d.strip ids).children old) (x : NodeId) :
    (d.placed new p).Reaches (d.slots.size + 1) c x ↔ (d.strip ids).Below c x := by
  -- What is below a child has its children in both documents.
  refine hf.reaches_iff ?_ (hf.isLive_of_child hc) (by simp) x
  intro b node hb hget
  have hmem : b ∉ ids := by
    rcases hb.cases_tail with rfl | ⟨q, -, hq⟩
    · exact child_not_stripped hf hids hc
    · exact child_not_stripped hf hids hq
  rw [get?_strip_of_not_mem hmem] at hget
  exact node_placed_of_get? hget

theorem replaced_strip {id : NodeId} (h : d.replace old new = .ok (id, d')) :
    ∃ parent, (d.strip ids).Replaced (d'.strip ids) old new parent := by
  obtain ⟨-, parent, e, hheld, hadopts, hretired, rfl⟩ := retired_of_replace h
  have hheld' : (d.strip ids).parent? old = some parent := by rw [parent?_strip, hheld]
  have hmem : old ∈ (d.strip ids).children parent := (hf.child_iff parent old).mpr hheld'
  have hparent : parent ∉ ids := by
    intro hp
    rw [children_strip_of_mem hp] at hmem
    cases hmem
  have hkids : (d.strip ids).children old = d.children old :=
    children_strip_of_not_mem (child_not_stripped hf hids hmem)
  have hretired : (d.placed new parent).Retired e ((d.strip ids).Gone old new) := by
    refine hretired.mono fun x => or_congr Iff.rfl (exists_congr fun c => ?_)
    rw [← hkids]
    exact and_congr_right fun hc => and_congr_right fun _ => reaches_strip hf hids hc x
  have hnew : ¬ (d.strip ids).Gone old new d.slots.size := by
    rw [← size_strip d ids]
    exact hf.size_not_gone (isLive_of_parent? hheld')
  have hpar : parent ≠ d.slots.size := by
    rw [← size_strip d ids]
    exact hf.parent_ne_size hheld'
  refine ⟨parent, hretired.root.trans (root_placed d new parent), ?_, hheld', ?_, ?_, ?_, ?_⟩
  · simp only [size_strip, redirect, Array.size_modify]
    rw [hretired.size, size_placed]
  · intro c hc
    rw [Adoptable, isLive_strip, parent?_strip, hkids]
    exact hadopts c hc
  · rw [size_strip, slots_strip, hretired.slots_added hnew hpar fun hc =>
      ne_size_of_isLive (hadopts _ hc).1 rfl]
    simp [Slot.strip, size_not_stripped hf hids]
  · intro x hx
    rw [isLive_strip]
    exact hretired.isLive_gone hx
  · intro x hne hx
    rw [size_strip] at hne ⊢
    rw [slots_strip, hretired.slots_kept hne hx, slots_strip, Option.map_map, Option.map_map]
    congr 1
    funext slot
    by_cases hmem : x ∈ ids
    · have hxp : x ≠ parent := fun he => hparent (he ▸ hmem)
      simp [Slot.strip, keptSlot, hmem, hxp]
    · simp [Slot.strip, hmem]

end

end Document

/-! ## Histories -/

namespace Change

/-- A replacement names no child twice. What is inserted may have any children. -/
def Repeatless : Change → Prop
  | insert _ => True
  | replace _ new => new.children.Nodup

instance : DecidablePred Repeatless
  | insert _ => inferInstanceAs (Decidable True)
  | replace _ new => inferInstanceAs (Decidable new.children.Nodup)

/-- The call adopts no node that was inserted with children. -/
def AdoptsLeaves (d : Document) : Change → Prop
  | insert _ => True
  | replace old new =>
    (d.replace old new).isOk = true → ∀ c ∈ new.children, d.parent? c = none → d.children c = []

instance (d : Document) : DecidablePred (AdoptsLeaves d)
  | insert _ => inferInstanceAs (Decidable True)
  | replace old new => inferInstanceAs (Decidable ((d.replace old new).isOk = true →
      ∀ c ∈ new.children, d.parent? c = none → d.children c = []))

end Change

namespace Revision

variable {r : Revision} {root : NodeId}

/-- The revision without the children of the nodes that wait. -/
def bare (r : Revision) : Revision := ⟨r.document.strip r.waiting, r.waiting⟩

/-- The nodes hang below the root or wait, once the children of those that wait are left out. -/
abbrev BareSound (r : Revision) (root : NodeId) : Prop := r.bare.Sound root

theorem BareSound.isTree (h : r.BareSound root) : r.document.IsTree := by
  have hroot : r.document.root = root := h.root_eq
  have hf : (r.document.strip r.waiting).Forest (r.document.root :: r.waiting) := hroot ▸ h.forest
  refine hf.isTree List.mem_cons_self ?_ rfl (r.document.size_strip _).symm fun x =>
    (r.document.parent?_strip _ x).symm
  intro x hx
  -- A node that waits is not below the root.
  have hwait : x ∉ r.waiting := by
    intro hmem
    have heq := hf.eq_of_below_top (List.mem_cons_of_mem _ hmem) hx
    exact (List.nodup_cons.mp hf.tops_nodup).1 (heq ▸ hmem)
  exact (Document.get?_strip_of_not_mem hwait).symm

theorem BareSound.insert (h : r.BareSound root) (node : Node) :
    (r.step (.insert node)).BareSound root := by
  have hinserted := Sound.insert h (Node.children_stripped node)
  simp only [bare, Document.size_strip, ← Document.strip_insert] at hinserted
  exact hinserted

theorem BareSound.waits (h : r.BareSound root) {x : NodeId} (hx : x ∈ r.waiting) :
    r.document.isLive x = true ∧ r.document.parent? x = none := by
  have htop := (h.forest.mem_tops x).mp (List.mem_cons_of_mem _ hx)
  rw [bare, Document.isLive_strip, Document.parent?_strip] at htop
  exact htop

namespace BareSound

variable {old id c : NodeId} {new : Node} {d' : Document} (h : r.BareSound root)
  (hrep : r.document.replace old new = .ok (id, d'))
include h hrep

theorem replaced : ∃ parent, r.bare.document.Replaced (d'.strip r.waiting) old new parent :=
  Document.replaced_strip h.forest (fun _ => List.mem_cons_of_mem _) hrep

theorem mem_waiting (hc : c ∈ new.children) (hnone : r.document.parent? c = none) :
    c ∈ r.waiting := by
  obtain ⟨parent, hreplaced⟩ := h.replaced hrep
  have htop := (h.forest.mem_tops c).mpr
    ⟨(hreplaced.adopts c hc).1, (r.document.parent?_strip _ c).trans hnone⟩
  rcases List.mem_cons.mp htop with rfl | hwait
  · exact absurd hc (Sound.root_not_adopted h hreplaced)
  · exact hwait

theorem node_waiting (hc : c ∈ r.waiting) :
    d'.slots[c]?.map Slot.node = r.document.slots[c]?.map Slot.node := by
  apply Document.node_of_replace hrep (Document.ne_size_of_isLive (h.waits hc).1)
  intro hheld
  have hmem := (h.forest.child_iff c old).mpr ((r.document.parent?_strip _ old).trans hheld)
  rw [bare, Document.children_strip_of_mem hc] at hmem
  cases hmem

theorem strip_replace (hnodup : new.children.Nodup) :
    Sound ⟨d'.strip r.waiting, r.waiting.filter (· ∉ new.children)⟩ root := by
  obtain ⟨parent, hreplaced⟩ := h.replaced hrep
  exact Sound.replaced (r := r.bare) h hnodup hreplaced

theorem replace (hnodup : new.children.Nodup)
    (hleaf : ∀ c ∈ new.children, r.document.parent? c = none → r.document.children c = []) :
    BareSound ⟨d', r.waiting.filter (· ∉ new.children)⟩ root := by
  have hstrip : d'.strip (r.waiting.filter (· ∉ new.children)) = d'.strip r.waiting := by
    apply Document.strip_filter
    intro x hx hnew node hnode
    obtain ⟨hlive, hnone⟩ := h.waits hx
    obtain ⟨other, hget⟩ := Document.isLive_iff.mp hlive
    have hkids := hleaf x (by simpa using hnew) hnone
    rw [h.node_waiting hrep hx, Document.node_of_get? hget, Option.some.injEq] at hnode
    rw [Document.children_of_get? hget, hnode] at hkids
    exact hkids
  rw [BareSound, bare, hstrip]
  exact h.strip_replace hrep hnodup

theorem not_isTree (hnodup : new.children.Nodup) (hc : c ∈ new.children)
    (hnone : r.document.parent? c = none) (hkids : r.document.children c ≠ []) : ¬ d'.IsTree := by
  intro htree
  have hsound := h.strip_replace hrep hnodup
  have hwait := h.mem_waiting hrep hc hnone
  obtain ⟨parent, hreplaced⟩ := h.replaced hrep
  have hlive : (d'.strip r.waiting).isLive c = true := by
    apply hsound.forest.isLive_of_child
    rw [Document.children_of_get? hreplaced.get?_new]
    exact hc
  have hbelow : d'.Below d'.root c := by
    have hroot : d'.root = root := hsound.root_eq
    rw [hroot]
    exact (hsound.below_root hlive (by simp [hc])).of_strip
  have hsame : d'.children c = r.document.children c := by
    rw [Document.isLive_strip] at hlive
    obtain ⟨node, hget⟩ := Document.isLive_iff.mp hlive
    obtain ⟨other, hother⟩ := Document.isLive_iff.mp (h.waits hwait).1
    have hnode := h.node_waiting hrep hwait
    rw [Document.node_of_get? hget, Document.node_of_get? hother, Option.some.injEq] at hnode
    rw [Document.children_of_get? hget, Document.children_of_get? hother, hnode]
  obtain ⟨k, hk⟩ := List.exists_mem_of_ne_nil _ hkids
  have hparent := htree.parent c k hbelow (hsame ▸ hk)
  -- In the sound document the adopted node has no children that a link could answer to.
  rw [← Document.parent?_strip d' r.waiting, ← hsound.forest.child_iff,
    Document.children_strip_of_mem hwait] at hparent
  cases hparent

end BareSound

theorem BareSound.step (h : r.BareSound root) {c : Change} (hc : c.Repeatless)
    (hleaf : c.AdoptsLeaves r.document) :
    (r.step c).BareSound root := by
  cases c with
  | insert node => exact h.insert node
  | replace old new =>
    unfold Revision.step
    cases hr : (Change.replace old new).perform.run r.document with
    | ok id d' =>
      have hrep := Change.run_replace_ok.mp hr
      exact h.replace hrep hc (hleaf (by rw [hrep]; rfl))
    | error e d' =>
      simp only [(Change.eq_of_run_error hr).1]
      exact h

theorem BareSound.adoptsLeaves (h : r.BareSound root) {c : Change} (hc : c.Repeatless)
    (htree : (r.step c).document.IsTree) : c.AdoptsLeaves r.document := by
  cases c with
  | insert node => trivial
  | replace old new =>
    intro hok c hmem hnone
    cases hrep : r.document.replace old new with
    | error e =>
      rw [hrep] at hok
      cases hok
    | ok made =>
      rw [Revision.step, Change.run_replace_ok.mpr hrep] at htree
      by_contra hkids
      exact h.not_isTree hrep hc hmem hnone hkids htree

/-- One step keeps the rest of a history sound or breaks the tree, so the first bad adoption
shows. -/
theorem BareSound.isTree_iff (h : r.BareSound root) {changes : List Change}
    (hc : ∀ c ∈ changes, c.Repeatless) :
    (∀ n, (r.run (changes.take n)).document.IsTree) ↔
      ∀ n (hn : n < changes.length), changes[n].AdoptsLeaves (r.run (changes.take n)).document := by
  apply @forall_run_iff (·.BareSound root) (·.document.IsTree) fun c r => c.AdoptsLeaves r.document
  · exact fun r hr => hr.isTree
  · exact fun r c hmem hr hleaf => hr.step (hc c hmem) hleaf
  · exact fun r c hmem hr htree => hr.adoptsLeaves (hc c hmem) htree
  · exact h

end Revision

/-! ## Inserted children -/

variable {source : String} {keep : Bool} {d : Document} {changes : List Change}

/-- A parsed document is a tree all along a history just when no replacement adopts a waiting node
with children. -/
theorem isTree_iff_adoptsLeaves (h : Document.parse source keep = .ok d)
    (hc : ∀ c ∈ changes, c.Repeatless) :
    (∀ n, (d.after (changes.take n)).document.IsTree) ↔
      ∀ n (hn : n < changes.length),
        changes[n].AdoptsLeaves (d.after (changes.take n)).document := by
  have hsound : (d.after []).Sound d.root := sound_after h (by simp)
  have hstart : Revision.BareSound ⟨d, []⟩ d.root := by
    rw [Revision.BareSound, Revision.bare, Document.strip_nil]
    exact hsound
  exact hstart.isTree_iff hc

/-- The nodes 5 and 6, the one inside the other, are inserted, and the paragraph of `<p>a</p>` takes
in `body`. -/
def nestedInsertion (body : NodeId) : List Change :=
  let nowhere : Location := ⟨.start, .start⟩
  [.insert ⟨nowhere, .literal ⟨"b", nowhere⟩⟩,
    .insert ⟨nowhere, .attrValue none [5] none⟩,
    .replace 3 ⟨nowhere, .element 0 [body] (some 2) false⟩]

/-- The inner node can be adopted while the outer one, which lists it too, still waits. -/
theorem isTree_iff_adoptsLeaves_inner : ∃ d, Document.parse "<p>a</p>" false = .ok d ∧
    (∀ c ∈ nestedInsertion 5, c.Repeatless) ∧
    (∀ n (hn : n < (nestedInsertion 5).length),
      (nestedInsertion 5)[n].AdoptsLeaves (d.after ((nestedInsertion 5).take n)).document) ∧
    (d.after (nestedInsertion 5)).document.parent? 5 = some 7 ∧
    (d.after (nestedInsertion 5)).document.children 6 = [5] ∧
    (d.after (nestedInsertion 5)).document.IsTree := by
  have hrun : (Document.parse "<p>a</p>" false).toOption.any (fun d =>
      decide ((∀ n (hn : n < (nestedInsertion 5).length),
          (nestedInsertion 5)[n].AdoptsLeaves (d.after ((nestedInsertion 5).take n)).document) ∧
        (d.after (nestedInsertion 5)).document.parent? 5 = some 7 ∧
        (d.after (nestedInsertion 5)).document.children 6 = [5])) = true := by
    decide +kernel
  obtain ⟨d, hd, hfacts⟩ := exists_ok_of_any hrun
  obtain ⟨hleaf, hparent, hkids⟩ := of_decide_eq_true hfacts
  have hc : ∀ c ∈ nestedInsertion 5, c.Repeatless := by decide
  exact ⟨d, hd, hc, hleaf, hparent, hkids, (isTree_iff_adoptsLeaves hd hc).mpr hleaf 3⟩

/-- Once the outer node is adopted, the inner one is below the root and has no parent. -/
theorem nestedInsertion_unlinked : ∃ d, Document.parse "<p>a</p>" false = .ok d ∧
    (∀ c ∈ nestedInsertion 6, c.Repeatless) ∧
    let e := (d.after (nestedInsertion 6)).document
    e.Below e.root 6 ∧ 5 ∈ e.children 6 ∧ e.parent? 5 = none ∧ ¬ e.IsTree := by
  have hrun : (Document.parse "<p>a</p>" false).toOption.any (fun d =>
      let e := (d.after (nestedInsertion 6)).document
      decide (7 ∈ e.children e.root ∧ 6 ∈ e.children 7 ∧ 5 ∈ e.children 6 ∧ e.parent? 5 = none)) =
        true := by
    decide +kernel
  obtain ⟨d, hd, hfacts⟩ := exists_ok_of_any hrun
  obtain ⟨htop, houter, hinner, hnone⟩ := of_decide_eq_true hfacts
  have hbelow := Document.Below.head htop (.head houter (.refl _ 6))
  refine ⟨d, hd, by decide, hbelow, hinner, hnone, ?_⟩
  intro htree
  have hparent := htree.parent 6 5 hbelow hinner
  rw [hnone] at hparent
  cases hparent

end TemplateLint
