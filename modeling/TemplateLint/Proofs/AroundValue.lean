import Mathlib.Data.Set.Function
import TemplateLint.Proofs.DroppedBlanks
import TemplateLint.Proofs.DroppedValue
import TemplateLint.Proofs.HeldPieces

/-!
# Around a value

A document without the value of an attribute still says what stands around that value. Main
statement: two documents that are the same without the value of one attribute are the same
everywhere else (`HasValue.relocate_eq`).
-/

namespace TemplateLint

/-! ## Children with new ids -/

namespace Content

variable {newId? : NodeId → Option NodeId} {f : NodeId → NodeId}
  {move : Position → Position} {c c' : Content}

theorem mapChildren_mapChildren (f g : NodeId → NodeId) (c : Content) :
    (c.mapChildren f).mapChildren g = c.mapChildren (g ∘ f) := by
  cases c <;> simp [mapChildren]

theorem relocate_mapChildren (move : Position → Position) (f : NodeId → NodeId) (c : Content) :
    (c.mapChildren f).relocate move = (c.relocate move).mapChildren f := by
  cases c <;> rfl

theorem eq_of_mapChildren_eq {kept : Set NodeId} (hinj : Set.InjOn f kept)
    (hc : ∀ x ∈ c.children, x ∈ kept) (hc' : ∀ x ∈ c'.children, x ∈ kept)
    (h : c'.mapChildren f = c.mapChildren f) : c' = c := by
  have hback (b : Content) (hb : ∀ x ∈ b.children, x ∈ kept) :
      (b.mapChildren f).mapChildren (Function.invFunOn f kept) = b := by
    have hundo (x : NodeId) (hx : x ∈ b.children) : (Function.invFunOn f kept ∘ f) x = id x :=
      hinj.leftInvOn_invFunOn (hb x hx)
    rw [mapChildren_mapChildren, mapChildren_congr hundo, mapChildren_id]
  rw [← hback c' hc', h, hback c hc]

theorem relocate_eq_of_prune (hinj : ∀ x y i, newId? x = some i → newId? y = some i → x = y)
    (hc : ∀ x ∈ c.children, (newId? x).isSome) (hc' : ∀ x ∈ c'.children, (newId? x).isSome)
    (h : (c'.prune newId?).relocate move = (c.prune newId?).relocate move) :
    c'.relocate move = c.relocate move := by
  let f (x : NodeId) : NodeId := (newId? x).getD x
  have hnew (x : NodeId) (hx : (newId? x).isSome) : newId? x = some (f x) := by
    obtain ⟨i, hi⟩ := Option.isSome_iff_exists.mp hx
    simp [f, hi]
  have hinjOn : Set.InjOn f {x | (newId? x).isSome} := fun x hx y hy hxy =>
    hinj x y (f y) ((hnew x hx).trans (congrArg some hxy)) (hnew y hy)
  rw [prune_eq_mapChildren fun x hx => hnew x (hc x hx),
    prune_eq_mapChildren fun x hx => hnew x (hc' x hx), relocate_mapChildren,
    relocate_mapChildren] at h
  apply eq_of_mapChildren_eq hinjOn _ _ h
  · rwa [children_relocate]
  · rwa [children_relocate]

end Content

/-! ## Documents without some ids -/

namespace Document

def among (ids : List NodeId) : NodeId → Content → Bool := fun x _ => ids.contains x

section Pruned

variable {d d' : Document} {ids : List NodeId} {x : NodeId}

theorem isKept_among_iff : d.isKept (among ids) x = true ↔ x < d.slots.size ∧ x ∉ ids := by
  rw [isKept_iff]
  simp only [among, List.contains_eq_mem, decide_eq_false_iff_not]
  constructor
  · rintro ⟨slot, hslot, hx⟩
    exact ⟨(Array.getElem?_eq_some_iff.mp hslot).1, hx⟩
  · rintro ⟨hlt, hx⟩
    exact ⟨_, Array.getElem?_eq_getElem hlt, hx⟩

theorem isSome_newId?_among (hlive : d.isLive x = true) (hx : x ∉ ids) :
    (d.newId? (among ids) x).isSome = true := by
  rw [newId?_of_isKept (isKept_among_iff.mpr ⟨lt_size_of_isLive hlive, hx⟩)]
  rfl

theorem keptBefore_among_eq (h : x ≤ d.slots.size) (h' : x ≤ d'.slots.size) :
    d'.keptBefore (among ids) x = d.keptBefore (among ids) x := by
  apply List.countP_congr
  intro y hy
  have hlt := List.mem_range.mp hy
  rw [isKept_among_iff, isKept_among_iff]
  simp only [Nat.lt_of_lt_of_le hlt h, Nat.lt_of_lt_of_le hlt h']

theorem size_le_of_prune (hlast : d.slots.size ∉ ids)
    (h : (d'.prune (among ids)).slots.size ≤ (d.prune (among ids)).slots.size) :
    d'.slots.size ≤ d.slots.size := by
  by_contra hlt
  have hlt := Nat.lt_of_not_le hlt
  have hmore := keptBefore_lt (isKept_among_iff.mpr ⟨hlt, hlast⟩) hlt
  rw [keptBefore_among_eq (Nat.le_refl _) (Nat.le_of_lt hlt)] at hmore
  rw [size_prune, size_prune] at h
  omega

theorem eq_of_bind_newId? {gone : NodeId → Content → Bool} {p p' : Option NodeId}
    (hp : ∀ y ∈ p, (d.newId? gone y).isSome) (hp' : ∀ y ∈ p', (d.newId? gone y).isSome)
    (h : p'.bind (d.newId? gone) = p.bind (d.newId? gone)) : p' = p := by
  cases p with
  | none =>
    cases p' with
    | none => rfl
    | some y' =>
      have hnone : d.newId? gone y' = none := h
      simp [hnone] at hp'
  | some y =>
    obtain ⟨i, hi⟩ := Option.isSome_iff_exists.mp (hp y rfl)
    rw [Option.bind_some, hi] at h
    obtain ⟨y', rfl, hi'⟩ := Option.bind_eq_some_iff.mp h
    rw [newId?_inj hi' hi]

variable (hsize : d'.slots.size = d.slots.size)
include hsize

theorem newId?_among_eq (ids : List NodeId) : d'.newId? (among ids) = d.newId? (among ids) := by
  funext x
  have hkept : d'.isKept (among ids) x = d.isKept (among ids) x := by
    rw [Bool.eq_iff_iff, isKept_among_iff, isKept_among_iff, hsize]
  rw [newId?, newId?, hkept]
  split
  · rename_i hx
    have hle := Nat.le_of_lt (lt_size_of_isKept hx)
    rw [keptBefore_among_eq hle (hsize ▸ hle)]
  · rfl

theorem slot_eq_of_prune (h : (d'.prune (among ids)).unplaced = (d.prune (among ids)).unplaced)
    (hx : x ∉ ids) {slot slot' : Slot} (hslot : d.slots[x]? = some slot)
    (hslot' : d'.slots[x]? = some slot') :
    slot'.parent.bind (d.newId? (among ids)) = slot.parent.bind (d.newId? (among ids)) ∧
      (slot'.node.content.prune (d.newId? (among ids))).relocate (fun _ => .start) =
        (slot.node.content.prune (d.newId? (among ids))).relocate fun _ => .start := by
  have hlt := (Array.getElem?_eq_some_iff.mp hslot).1
  have hlt' := (Array.getElem?_eq_some_iff.mp hslot').1
  have hslots := congrArg (fun e : Document => e.slots[d.keptBefore (among ids) x]?) h
  simp only [unplaced, seen, Array.getElem?_map] at hslots
  rw [slots_prune (isKept_among_iff.mpr ⟨hlt, hx⟩),
    ← keptBefore_among_eq (Nat.le_of_lt hlt) (Nat.le_of_lt hlt'),
    slots_prune (isKept_among_iff.mpr ⟨hlt', hx⟩), hslot, hslot', newId?_among_eq hsize] at hslots
  simp only [Option.map_some, Option.some.injEq, Slot.seen, Slot.prune, Slot.mk.injEq,
    Node.mk.injEq] at hslots
  exact ⟨hslots.2.1, hslots.1.2⟩

end Pruned

/-! ## An attribute and its value -/

/-- In a tree the attribute `a` has the value `n`, and that has these parts, with nothing below
them. -/
structure HasValue (d : Document) (a n : NodeId) (parts : List NodeId) : Prop where
  forest : d.Forest [d.root]
  tabled : d.Tabled
  value_eq : d.children a = [n]
  parts_eq : d.children n = parts
  leaf : ∀ l ∈ parts, d.children l = []

namespace HasValue

variable {d d' : Document} {a n x p c : NodeId} {parts : List NodeId}

theorem dropValue_eq (h : d.HasValue a n parts) : d.dropValue a = d.prune (among (n :: parts)) := by
  refine prune_congr fun x _ _ => ?_
  rw [h.value_eq, List.any_cons, List.any_nil, Bool.or_false, h.parts_eq, among, List.contains_cons]

theorem parent?_value (h : d.HasValue a n parts) : d.parent? n = some a :=
  (h.forest.child_iff a n).mp (by simp [h.value_eq])

theorem parent?_part (h : d.HasValue a n parts) (hx : x ∈ parts) : d.parent? x = some n :=
  (h.forest.child_iff n x).mp (by rwa [h.parts_eq])

theorem size_not_mem (h : d.HasValue a n parts) : d.slots.size ∉ n :: parts := by
  intro hmem
  rcases List.mem_cons.mp hmem with hn | hpart
  · exact ne_size_of_isLive (isLive_of_parent? h.parent?_value) hn.symm
  · exact ne_size_of_isLive (isLive_of_parent? (h.parent?_part hpart)) rfl

theorem isSome_root (h : d.HasValue a n parts) :
    (d.newId? (among (n :: parts)) d.root).isSome = true := by
  obtain ⟨hlive, hparent⟩ := (h.forest.mem_tops d.root).mp (by simp)
  apply isSome_newId?_among hlive
  intro hmem
  rcases List.mem_cons.mp hmem with hn | hpart
  · simp [hn, h.parent?_value] at hparent
  · simp [h.parent?_part hpart] at hparent

theorem isSome_parent (h : d.HasValue a n parts) (hx : x ∉ n :: parts) (hp : d.parent? x = some p) :
    (d.newId? (among (n :: parts)) p).isSome = true := by
  have hchild := (h.forest.child_iff p x).mpr hp
  apply isSome_newId?_among (isLive_of_mem_children hchild)
  intro hmem
  rcases List.mem_cons.mp hmem with rfl | hpart
  · rw [h.parts_eq] at hchild
    exact hx (List.mem_cons_of_mem _ hchild)
  · rw [h.leaf p hpart] at hchild
    cases hchild

theorem isSome_child (h : d.HasValue a n parts) (hx : x ∉ a :: n :: parts) (hc : c ∈ d.children x) :
    (d.newId? (among (n :: parts)) c).isSome = true := by
  have hparent := (h.forest.child_iff x c).mp hc
  apply isSome_newId?_among (h.forest.isLive_of_child hc)
  intro hmem
  rcases List.mem_cons.mp hmem with rfl | hpart
  · obtain rfl := Option.some.inj (hparent.symm.trans h.parent?_value)
    exact hx List.mem_cons_self
  · obtain rfl := Option.some.inj (hparent.symm.trans (h.parent?_part hpart))
    exact hx (by simp)

section Alike

variable (h : d.HasValue a n parts) (h' : d'.HasValue a n parts)
  (hsame : (d'.dropValue a).unplaced = (d.dropValue a).unplaced)
include h h' hsame

theorem size_eq : d'.slots.size = d.slots.size := by
  rw [h.dropValue_eq, h'.dropValue_eq] at hsame
  have hsizes := congrArg (fun e : Document => e.slots.size) hsame
  simp only [unplaced, size_seen] at hsizes
  exact Nat.le_antisymm (size_le_of_prune h.size_not_mem (Nat.le_of_eq hsizes))
    (size_le_of_prune h'.size_not_mem (Nat.le_of_eq hsizes.symm))

theorem root_eq : d'.root = d.root := by
  have hsize := h.size_eq h' hsame
  obtain ⟨i, hi⟩ := Option.isSome_iff_exists.mp h.isSome_root
  obtain ⟨j, hj⟩ := Option.isSome_iff_exists.mp h'.isSome_root
  rw [h.dropValue_eq, h'.dropValue_eq] at hsame
  have hroots := congrArg Document.root hsame
  simp only [unplaced, seen, prune, hi, hj, Option.getD_some] at hroots
  rw [newId?_among_eq hsize, hroots] at hj
  exact newId?_inj hj hi

theorem parent?_eq (x : NodeId) : d'.parent? x = d.parent? x := by
  have hsize := h.size_eq h' hsame
  by_cases hmem : x ∈ n :: parts
  · rcases List.mem_cons.mp hmem with rfl | hpart
    · rw [h.parent?_value, h'.parent?_value]
    · rw [h.parent?_part hpart, h'.parent?_part hpart]
  rw [h.dropValue_eq, h'.dropValue_eq] at hsame
  by_cases hlt : x < d.slots.size
  · have hlt' : x < d'.slots.size := hsize ▸ hlt
    have hslot := Array.getElem?_eq_getElem hlt
    have hslot' := Array.getElem?_eq_getElem hlt'
    have hparent : d.parent? x = d.slots[x].parent := by
      rw [parent?_of_slot hslot, if_pos (h.tabled x _ hslot).1]
    have hparent' : d'.parent? x = d'.slots[x].parent := by
      rw [parent?_of_slot hslot', if_pos (h'.tabled x _ hslot').1]
    have hbind := (slot_eq_of_prune hsize hsame hmem hslot hslot').1
    rw [← hparent, ← hparent'] at hbind
    refine eq_of_bind_newId? (fun p hp => h.isSome_parent hmem hp) (fun p hp => ?_) hbind
    rw [← newId?_among_eq hsize]
    exact h'.isSome_parent hmem hp
  · have hslot : d.slots[x]? = none := Array.getElem?_eq_none (Nat.le_of_not_lt hlt)
    have hslot' : d'.slots[x]? = none := Array.getElem?_eq_none (hsize ▸ Nat.le_of_not_lt hlt)
    simp only [parent?, hslot, hslot']

/-- Away from the attribute and its value both documents have the same nodes. -/
theorem relocate_eq (hx : x ∉ a :: n :: parts) {b b' : Content} (hb : d.content? x = some b)
    (hb' : d'.content? x = some b') :
    b'.relocate (fun _ => .start) = b.relocate fun _ => .start := by
  have hsize := h.size_eq h' hsame
  rw [h.dropValue_eq, h'.dropValue_eq] at hsame
  obtain ⟨node, hget, rfl⟩ := get?_of_content? hb
  obtain ⟨node', hget', rfl⟩ := get?_of_content? hb'
  obtain ⟨slot, hslot, rfl⟩ := slot_of_get? hget
  obtain ⟨slot', hslot', rfl⟩ := slot_of_get? hget'
  have hcontent :=
    (slot_eq_of_prune hsize hsame (fun hmem => hx (List.mem_cons_of_mem _ hmem)) hslot hslot').2
  apply Content.relocate_eq_of_prune (fun _ _ _ => newId?_inj) _ _ hcontent
  · intro c hc
    rw [← children_of_get? hget] at hc
    exact h.isSome_child hx hc
  · intro c hc
    rw [← children_of_get? hget'] at hc
    rw [← newId?_among_eq hsize]
    exact h'.isSome_child hx hc

end Alike

end HasValue

end Document

end TemplateLint
