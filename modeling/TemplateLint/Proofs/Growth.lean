import TemplateLint.Document.Draft
import TemplateLint.Document.Edit
import TemplateLint.Proofs.Forest

/-!
# New nodes

A new node adopts its children, which have been tops until then, and becomes a top in their stead.
The texts of all other nodes stay. Drafts grow in this way, and so do documents by inserted nodes.
-/

namespace TemplateLint

variable {d d' : Document} {node : Node}

/-! ## Slots -/

namespace Document

theorem slots_insert (d : Document) (node : Node) (x : NodeId) :
    (d.insert node).2.slots[x]? = if x = d.slots.size then some ⟨node, none, true⟩
      else d.slots[x]? := by
  simp only [insert]
  rw [Array.getElem?_push]

theorem slots_setParent (d : Document) (parent child x : NodeId) :
    (d.setParent parent child).slots[x]? =
      if child = x then d.slots[x]?.map fun slot => { slot with parent := some parent }
        else d.slots[x]? := by
  simp only [setParent]
  rw [Array.getElem?_modify]

theorem slots_setParents (d : Document) (parent : NodeId) (ids : List NodeId) (x : NodeId) :
    (ids.foldl (·.setParent parent) d).slots[x]? =
      if x ∈ ids then d.slots[x]?.map fun slot => { slot with parent := some parent }
        else d.slots[x]? := by
  induction ids generalizing d with
  | nil => simp
  | cons id rest ih =>
    rw [List.foldl_cons, ih, slots_setParent]
    by_cases he : id = x
    · subst he
      simp only [if_true, List.mem_cons, true_or]
      split
      · cases d.slots[id]? <;> rfl
      · rfl
    · simp [he, Ne.symm he]

theorem size_setParents (d : Document) (parent : NodeId) (ids : List NodeId) :
    (ids.foldl (·.setParent parent) d).slots.size = d.slots.size := by
  induction ids generalizing d with
  | nil => rfl
  | cons id rest ih => rw [List.foldl_cons, ih]; simp [setParent]

end Document

/-- The document as far as it has come; its root will be `root`. -/
def Draft.view (root : NodeId) (d : Draft) : Document := ⟨d.slots, root⟩

/-- All pieces and the ends of what is still open. Only the root is missing. -/
def Draft.ofPieces (keepBlanks : Bool) (ps : List Markup.Piece) : Draft :=
  let d := (Layout.pieces keepBlanks ps .empty).2
  (Layout.endAll #[] d.openElements d).2

def Draft.addRoot (d : Draft) : NodeId × Draft := d.push ⟨.start, d.here⟩ (.document d.top.toList)

theorem Document.ofPieces_eq_view (keepBlanks : Bool) (ps : List Markup.Piece) :
    Document.ofPieces keepBlanks ps =
      (Draft.ofPieces keepBlanks ps).addRoot.2.view (Draft.ofPieces keepBlanks ps).addRoot.1 := rfl

namespace Draft

theorem push_eq (d : Draft) (location : Location) (content : Content) :
    (d.push location content).2.slots =
      (content.children.foldl (·.setParent d.slots.size) (d.view 0)).slots.push
        ⟨⟨location, content⟩, none, true⟩ := by
  have hfold (ids : List NodeId) (view : Document) :
      ids.foldl (fun slots child => slots.modify child fun slot =>
        { slot with parent := some d.slots.size }) view.slots =
        (ids.foldl (·.setParent d.slots.size) view).slots := by
    induction ids generalizing view with
    | nil => rfl
    | cons id rest ih => exact ih (view.setParent d.slots.size id)
  rw [← hfold]
  rfl

theorem size_push (d : Draft) (location : Location) (content : Content) :
    (d.push location content).2.slots.size = d.slots.size + 1 := by
  rw [push_eq, Array.size_push, Document.size_setParents]
  rfl

theorem slots_push (d : Draft) (location : Location) (content : Content) (x : NodeId) :
    (d.push location content).2.slots[x]? =
      if x = d.slots.size then some ⟨⟨location, content⟩, none, true⟩
      else if x ∈ content.children then d.slots[x]?.map fun slot =>
        { slot with parent := some d.slots.size }
      else d.slots[x]? := by
  rw [push_eq, Array.getElem?_push, Document.size_setParents, Document.slots_setParents]
  rfl

end Draft

/-! ## Adoption -/

namespace Document

/-- `d'` is `d` with a new live node, which is the parent of its children now. -/
structure Grows (d d' : Document) (node : Node) : Prop where
  size : d'.slots.size = d.slots.size + 1
  slots : ∀ x, d'.slots[x]? =
    if x = d.slots.size then some ⟨node, none, true⟩
    else if x ∈ node.children then d.slots[x]?.map fun slot =>
      { slot with parent := some d.slots.size }
    else d.slots[x]?

theorem grows_insert (d : Document) (h : node.children = []) : d.Grows (d.insert node).2 node := by
  refine ⟨by simp [insert], ?_⟩
  intro x
  rw [slots_insert, h]
  simp

theorem grows_push (root : NodeId) (d : Draft) (location : Location) (content : Content) :
    (d.view root).Grows ((d.push location content).2.view root) ⟨location, content⟩ :=
  ⟨d.size_push location content, d.slots_push location content⟩

namespace Grows

variable {x p c : NodeId}

theorem get?_new (h : d.Grows d' node) : d'.get? d.slots.size = some node := by
  simp [get?, h.slots]

theorem parent?_new (h : d.Grows d' node) : d'.parent? d.slots.size = none := by
  simp [parent?, h.slots]

theorem get?_old (h : d.Grows d' node) (hx : x ≠ d.slots.size) : d'.get? x = d.get? x := by
  rw [get?, get?, h.slots, if_neg hx]
  by_cases hk : x ∈ node.children
  · rw [if_pos hk]
    cases d.slots[x]? <;> rfl
  · rw [if_neg hk]

theorem isLive_old (h : d.Grows d' node) (hx : x ≠ d.slots.size) : d'.isLive x = d.isLive x := by
  rw [isLive, isLive, h.get?_old hx]

theorem children_old (h : d.Grows d' node) (hx : x ≠ d.slots.size) :
    d'.children x = d.children x := by
  rw [children, children, h.get?_old hx]

theorem parent?_child (h : d.Grows d' node) (hx : x ∈ node.children) (hlive : d.isLive x = true) :
    d'.parent? x = some d.slots.size := by
  rw [parent?, h.slots, if_neg (ne_size_of_isLive hlive), if_pos hx]
  obtain ⟨slot, hs, hslot⟩ := exists_slot_of_isLive hlive
  simp [hs, hslot]

theorem parent?_old (h : d.Grows d' node) (hne : x ≠ d.slots.size) (hx : x ∉ node.children) :
    d'.parent? x = d.parent? x := by
  rw [parent?, parent?, h.slots, if_neg hne, if_neg hx]

variable {before kids after tops : List NodeId}

theorem mem_tops (hf : d.Forest (before ++ kids ++ after)) (h : d.Grows d' node)
    (hkids : node.children = kids) :
    x ∈ before ++ [d.slots.size] ++ after ↔ d'.isLive x = true ∧ d'.parent? x = none := by
  by_cases hx : x = d.slots.size
  · subst hx
    simp [isLive_of_get? h.get?_new, h.parent?_new]
  have hrest : x ∈ before ++ [d.slots.size] ++ after ↔ x ∈ before ++ kids ++ after ∧ x ∉ kids := by
    have hnodup := hf.tops_nodup
    simp only [List.nodup_append, List.mem_append, List.mem_singleton] at hnodup ⊢
    grind
  rw [hrest, hf.mem_tops, h.isLive_old hx]
  by_cases hk : x ∈ kids
  · have hlive := ((hf.mem_tops x).mp (by simp [hk])).1
    rw [h.parent?_child (by rw [hkids]; exact hk) hlive]
    simp [hk]
  · rw [h.parent?_old hx (by rw [hkids]; exact hk)]
    simp [hk]

theorem child_iff (hf : d.Forest tops) (h : d.Grows d' node)
    (hkids : ∀ c ∈ node.children, c ∈ tops) :
    c ∈ d'.children p ↔ d'.parent? c = some p := by
  have htop (hk : c ∈ node.children) := (hf.mem_tops c).mp (hkids c hk)
  by_cases hp : p = d.slots.size
  · subst hp
    rw [children_of_get? h.get?_new]
    constructor
    · intro hk
      exact h.parent?_child hk (htop hk).1
    · intro hc
      by_contra hk
      have hne : c ≠ d.slots.size := by
        rintro rfl
        rw [h.parent?_new] at hc
        simp at hc
      rw [h.parent?_old hne hk, ← hf.child_iff] at hc
      exact ne_size_of_isLive (isLive_of_mem_children hc) rfl
  · rw [h.children_old hp, hf.child_iff]
    by_cases hc : c = d.slots.size
    · subst hc
      rw [h.parent?_new]
      simp only [reduceCtorEq, iff_false]
      intro hpar
      exact ne_size_of_isLive (isLive_of_parent? hpar) rfl
    · by_cases hk : c ∈ node.children
      · rw [(htop hk).2, h.parent?_child hk (htop hk).1]
        simp [Ne.symm hp]
      · rw [h.parent?_old hc hk]

theorem grounded (hf : d.Forest tops) (h : d.Grows d' node)
    (hkids : ∀ c ∈ node.children, c ∈ tops) :
    d'.Grounded := by
  -- All nodes so far rank below the size of the table, which is the rank of the new one.
  obtain ⟨rank, hbound, hrank⟩ := hf.grounded
  refine ⟨fun x => if x = d.slots.size then d.slots.size else rank x, ?_, ?_⟩
  · intro x hx
    simp only [h.size]
    split
    · omega
    · rename_i hne
      rw [h.isLive_old hne] at hx
      have := hbound x hx
      omega
  · intro p c hc
    by_cases hp : p = d.slots.size
    · subst hp
      rw [children_of_get? h.get?_new] at hc
      have hlive := ((hf.mem_tops c).mp (hkids c hc)).1
      simp only [if_true, if_neg (ne_size_of_isLive hlive)]
      exact hbound c hlive
    · rw [h.children_old hp] at hc
      simp only [if_neg hp, if_neg (ne_size_of_isLive (hf.isLive_of_child hc))]
      exact hrank p c hc

end Grows

variable {before kids after : List NodeId}

/-- The new node stands among the tops where its children stood. -/
theorem Forest.grow (hf : d.Forest (before ++ kids ++ after)) (h : d.Grows d' node)
    (hkids : node.children = kids) : d'.Forest (before ++ [d.slots.size] ++ after) := by
  have hnodup := hf.tops_nodup
  have htops (c : NodeId) (hc : c ∈ node.children) : c ∈ before ++ kids ++ after := by
    rw [hkids] at hc
    simp [hc]
  have hnew : d.slots.size ∉ before ++ kids ++ after :=
    fun hx => ne_size_of_isLive ((hf.mem_tops _).mp hx).1 rfl
  refine ⟨?_, fun _ => h.mem_tops hf hkids, fun _ _ => h.child_iff hf htops,
    ?_, h.grounded hf htops⟩
  · simp only [List.nodup_append, List.mem_append, List.mem_singleton] at hnodup hnew ⊢
    grind
  · intro p
    by_cases hp : p = d.slots.size
    · rw [hp, children_of_get? h.get?_new]
      change node.children.Nodup
      rw [hkids]
      exact (List.nodup_append.mp (List.nodup_append.mp hnodup).1).2.1
    · rw [h.children_old hp]
      exact hf.children_nodup p

theorem Forest.text_grow {tops : List NodeId} (hf : d.Forest tops) (h : d.Grows d' node)
    (hg : d'.Grounded) {x : NodeId} (hx : x ≠ d.slots.size) : d'.text x = d.text x := by
  apply text_congr hf.grounded hg (S := (· ≠ d.slots.size)) _ hx
  intro id hid
  refine ⟨h.get?_old hid, ?_⟩
  intro c hc
  exact ne_size_of_isLive (hf.isLive_of_child hc)

end Document

end TemplateLint
