import Mathlib.Data.List.Nodup
import TemplateLint.Proofs.Growth

/-!
# Replacements

What a successful replacement does to each slot, seen through live nodes and parent links. Main
statements: one spec of the step (`replaced_of_replace`), and that it turns a forest into a forest
(`Forest.replace`).
-/

namespace TemplateLint.Document

variable {d d' : Document} {old id : NodeId} {new : Node}

/-! ## Retiring -/

/-- `d'` is `d` with the slots in `gone` no longer live. -/
structure Retired (d d' : Document) (gone : NodeId → Prop) : Prop where
  root : d'.root = d.root
  size : d'.slots.size = d.slots.size
  kept : ∀ x, ¬ gone x → d'.slots[x]? = d.slots[x]?
  dropped : ∀ x, gone x → d'.slots[x]? = d.slots[x]?.map fun slot => { slot with live := false }

namespace Retired

variable {d₁ d₂ : Document} {P Q : NodeId → Prop}

theorem none (d : Document) : d.Retired d fun _ => False :=
  ⟨rfl, rfl, fun _ _ => rfl, fun _ h => h.elim⟩

theorem trans (h₁ : d.Retired d₁ P) (h₂ : d₁.Retired d₂ Q) : d.Retired d₂ fun x => P x ∨ Q x := by
  refine ⟨h₂.root.trans h₁.root, h₂.size.trans h₁.size, ?_, ?_⟩
  · intro x hx
    rw [h₂.kept x fun hq => hx (Or.inr hq), h₁.kept x fun hp => hx (Or.inl hp)]
  · intro x hx
    by_cases hq : Q x
    · rw [h₂.dropped x hq]
      by_cases hp : P x
      · rw [h₁.dropped x hp]
        cases d.slots[x]? <;> rfl
      · rw [h₁.kept x hp]
    · rw [h₂.kept x hq, h₁.dropped x (hx.resolve_right hq)]

theorem mono (h : d.Retired d₁ P) (hPQ : ∀ x, P x ↔ Q x) : d.Retired d₁ Q :=
  ⟨h.root, h.size, fun x hx => h.kept x fun hp => hx ((hPQ x).mp hp),
    fun x hx => h.dropped x ((hPQ x).mpr hx)⟩

theorem node (h : d.Retired d₁ P) (x : NodeId) :
    d₁.slots[x]?.map Slot.node = d.slots[x]?.map Slot.node := by
  by_cases hp : P x
  · rw [h.dropped x hp]
    cases d.slots[x]? <;> rfl
  · rw [h.kept x hp]

theorem kill (d : Document) (id : NodeId) : d.Retired (d.kill id) (· = id) := by
  refine ⟨rfl, by simp [Document.kill], ?_, ?_⟩
  · intro x hx
    simp only [Document.kill]
    rw [Array.getElem?_modify, if_neg (Ne.symm hx)]
  · rintro x rfl
    simp only [Document.kill]
    rw [Array.getElem?_modify, if_pos rfl]

theorem foldl {step : Document → NodeId → Document} {gone : Document → NodeId → NodeId → Prop}
    (hstep : ∀ (d : Document) c, d.Retired (step d c) (gone d c))
    (hgone : ∀ {d d₁ : Document} {P : NodeId → Prop}, d.Retired d₁ P → ∀ c x,
      gone d₁ c x ↔ gone d c x)
    (d : Document) (ids : List NodeId) :
    d.Retired (ids.foldl step d) fun x => ∃ c ∈ ids, gone d c x := by
  -- What an id retires hangs on the nodes of the slots only.
  induction ids generalizing d with
  | nil => exact (Retired.none d).mono (by simp)
  | cons id rest ih =>
    refine ((hstep d id).trans (ih (step d id))).mono ?_
    intro x
    simp only [hgone (hstep d id), List.mem_cons, exists_eq_or_imp]

end Retired

/-- `x` is `a` or is named below it, `depth` levels at most, in slots live or not. -/
def Reaches (d : Document) : (depth : Nat) → NodeId → NodeId → Prop
  | 0, _, _ => False
  | depth + 1, a, x =>
    ∃ node, d.slots[a]?.map Slot.node = some node ∧
      (x = a ∨ ∃ c ∈ node.children, d.Reaches depth c x)

theorem Retired.reaches_iff {P : NodeId → Prop} (h : d.Retired d' P) (depth : Nat) (a x : NodeId) :
    d'.Reaches depth a x ↔ d.Reaches depth a x := by
  induction depth generalizing a with
  | zero => rfl
  | succ depth ih => simp only [Reaches, h.node a, ih]

theorem retired_retireTo (depth : Nat) (d : Document) (id : NodeId) :
    d.Retired (retireTo depth d id) (d.Reaches depth id) := by
  induction depth generalizing d id with
  | zero => exact Retired.none d
  | succ depth ih =>
    cases hs : d.slots[id]? with
    | none =>
      simp only [retireTo, hs]
      exact (Retired.none d).mono (by simp [Reaches, hs])
    | some slot =>
      simp only [retireTo, hs]
      have hkill := Retired.kill d id
      have hbelow :=
        Retired.foldl ih (fun h c x => h.reaches_iff depth c x) (d.kill id) slot.node.children
      refine (hkill.trans hbelow).mono ?_
      intro x
      simp [Reaches, hs, hkill.reaches_iff]

theorem retired_retireAll (d : Document) (ids : List NodeId) :
    d.Retired (ids.foldl retire d) fun x => ∃ c ∈ ids, d.Reaches d.slots.size c x := by
  apply @Retired.foldl retire fun d => d.Reaches d.slots.size
  · intro d c
    exact retired_retireTo d.slots.size d c
  · intro d d₁ P h c x
    rw [h.size, h.reaches_iff]

theorem Forest.reaches_iff {tops : List NodeId} (hf : d.Forest tops) {a : NodeId}
    (hsame : ∀ b node, d.Below a b → d.get? b = some node → d'.slots[b]?.map Slot.node = some node)
    (ha : d.isLive a = true) {depth : Nat} (hdepth : d.slots.size ≤ depth) (x : NodeId) :
    d'.Reaches depth a x ↔ d.Below a x := by
  obtain ⟨rank, hbound, hrank⟩ := hf.grounded
  have hlt : rank a < depth := Nat.lt_of_lt_of_le (hbound a ha) hdepth
  clear hdepth
  induction depth generalizing a with
  | zero => omega
  | succ depth ih =>
    obtain ⟨node, hget⟩ := isLive_iff.mp ha
    have hchild (c : NodeId) (hc : c ∈ node.children) : d'.Reaches depth c x ↔ d.Below c x := by
      have hmem : c ∈ d.children a := by rw [children_of_get? hget]; exact hc
      have hless := hrank a c hmem
      exact ih (fun b other hb => hsame b other (.head hmem hb))
        (hf.isLive_of_child hmem) (by omega)
    simp only [Reaches, hsame a node (.refl d a) hget, Option.some.injEq, exists_eq_left']
    constructor
    · rintro (rfl | ⟨c, hc, hx⟩)
      · exact .refl d x
      · exact .head (by rw [children_of_get? hget]; exact hc) ((hchild c hc).mp hx)
    · intro hx
      rcases hx.cases_head with rfl | ⟨c, hc, hx⟩
      · exact Or.inl rfl
      · rw [children_of_get? hget] at hc
        exact Or.inr ⟨c, hc, (hchild c hc).mpr hx⟩

/-! ## The step -/

theorem liveSlot_ok_iff {slot : Slot} :
    d.liveSlot old = .ok slot ↔ d.slots[old]? = some slot ∧ slot.live = true := by
  unfold liveSlot
  cases d.slots[old]? with
  | none => simp
  | some found =>
    by_cases hlive : found.live = true
    · simp only [hlive, if_true, Except.ok.injEq, Option.some.injEq]
      grind
    · simp only [hlive, Option.some.injEq]
      grind

/-- A replacement of `old` may hold `c`: it is a child of `old`, or a node that waits for a
parent. -/
def Adoptable (d : Document) (old c : NodeId) : Prop :=
  d.isLive c = true ∧ (c ∈ d.children old ∨ d.parent? c = none ∧ c ≠ d.root)

theorem mayAdopt_ok_iff {c : NodeId} :
    d.mayAdopt old (d.children old) c = .ok () ↔ d.Adoptable old c := by
  unfold mayAdopt Adoptable
  cases hslot : d.liveSlot c with
  | error e =>
    have hdead : d.isLive c ≠ true := by
      intro hlive
      obtain ⟨slot, hs⟩ := exists_slot_of_isLive hlive
      rw [liveSlot_ok_iff.mpr hs] at hslot
      simp at hslot
    simp [hdead]
  | ok slot =>
    obtain ⟨hs, hlive⟩ := liveSlot_ok_iff.mp hslot
    simp [isLive, get?_of_slot hs, parent?_of_slot hs, hlive, Classical.or_iff_not_imp_left]

theorem checkChildren_ok_iff {kids ids : List NodeId} :
    d.checkChildren old kids ids = .ok () ↔ ∀ c ∈ ids, d.mayAdopt old kids c = .ok () := by
  induction ids with
  | nil => simp [checkChildren]
  | cons id rest ih =>
    rw [checkChildren, List.forall_mem_cons, ← ih]
    cases d.mayAdopt old kids id with
    | error e => simp
    | ok u => simp

/-- The replaced node and all below those of its children that the new node does not keep. -/
def Gone (d : Document) (old : NodeId) (new : Node) (x : NodeId) : Prop :=
  x = old ∨ ∃ c ∈ d.children old, c ∉ new.children ∧ d.Below c x

def keptSlot (old : NodeId) (new : Node) (parent id x : NodeId) (slot : Slot) : Slot where
  node := if x = parent then { slot.node with content := slot.node.content.redirect old id }
  else slot.node
  parent := if x ∈ new.children then some id else slot.parent
  live := slot.live

/-- `d'` is `d` after `old`, a child of `parent`, was replaced by `new`. -/
structure Replaced (d d' : Document) (old : NodeId) (new : Node) (parent : NodeId) : Prop where
  root : d'.root = d.root
  size : d'.slots.size = d.slots.size + 1
  held : d.parent? old = some parent
  adopts : ∀ c ∈ new.children, d.Adoptable old c
  added : d'.slots[d.slots.size]? = some ⟨new, some parent, true⟩
  gone : ∀ x, d.Gone old new x → d'.isLive x = false
  kept : ∀ x, x ≠ d.slots.size → ¬ d.Gone old new x →
    d'.slots[x]? = d.slots[x]?.map (keptSlot old new parent d.slots.size x)

/-- The document with the new node in its place, before anything is retired. -/
def placed (d : Document) (new : Node) (parent : NodeId) : Document :=
  (new.children.foldl (·.setParent d.slots.size) (d.insert new).2).setParent parent d.slots.size

theorem replace_cases (h : d.replace old new = .ok (id, d')) :
    ∃ slot parent, d.slots[old]? = some slot ∧ slot.live = true ∧ slot.parent = some parent ∧
      d.checkChildren old slot.node.children new.children = .ok () ∧ id = d.slots.size ∧
      d' = (((slot.node.children.filter (! new.children.contains ·)).foldl retire
        (d.placed new parent)).kill old).redirect parent old d.slots.size := by
  unfold replace at h
  cases hslot : d.liveSlot old with
  | error e => simp [hslot] at h
  | ok slot =>
    obtain ⟨hs, hlive⟩ := liveSlot_ok_iff.mp hslot
    cases hparent : slot.parent with
    | none => simp [hslot, hparent] at h
    | some parent =>
      cases hcheck : d.checkChildren old slot.node.children new.children with
      | error e => simp [hslot, hparent, hcheck] at h
      | ok u =>
        simp only [hslot, hparent, hcheck, Except.ok.injEq, Prod.mk.injEq] at h
        exact ⟨slot, parent, hs, hlive, hparent, hcheck, h.1.symm, h.2.symm⟩

/-- A replacement is made just when the old node has a parent and the new one may hold its
children. -/
theorem replace_isOk_iff : (∃ r, d.replace old new = .ok r) ↔
    (∃ parent, d.parent? old = some parent) ∧ ∀ c ∈ new.children, d.Adoptable old c := by
  constructor
  · rintro ⟨⟨id, d'⟩, h⟩
    obtain ⟨slot, parent, hs, hlive, hparent, hcheck, -, -⟩ := replace_cases h
    have hget : d.get? old = some slot.node := by simp [get?_of_slot hs, hlive]
    refine ⟨⟨parent, by simp [parent?_of_slot hs, hlive, hparent]⟩, ?_⟩
    intro c hc
    rw [← mayAdopt_ok_iff, children_of_get? hget]
    exact checkChildren_ok_iff.mp hcheck c hc
  · rintro ⟨⟨parent, hparent⟩, hadopts⟩
    obtain ⟨slot, hs, hlive⟩ := exists_slot_of_isLive (isLive_of_parent? hparent)
    have hget : d.get? old = some slot.node := by simp [get?_of_slot hs, hlive]
    have hcheck : d.checkChildren old slot.node.children new.children = .ok () := by
      rw [checkChildren_ok_iff]
      intro c hc
      have hkids : slot.node.children = d.children old := (children_of_get? hget).symm
      rw [hkids, mayAdopt_ok_iff]
      exact hadopts c hc
    rw [parent?_of_slot hs, if_pos hlive] at hparent
    simp [replace, liveSlot_ok_iff.mpr ⟨hs, hlive⟩, hparent, hcheck]

theorem slots_placed {parent x : NodeId} (hx : x ≠ d.slots.size) :
    (d.placed new parent).slots[x]? =
      if x ∈ new.children then d.slots[x]?.map fun slot => { slot with parent := some d.slots.size }
      else d.slots[x]? := by
  rw [placed, slots_setParent, if_neg (Ne.symm hx), slots_setParents, slots_insert, if_neg hx]

theorem slots_placed_new {parent : NodeId} (h : d.slots.size ∉ new.children) :
    (d.placed new parent).slots[d.slots.size]? = some ⟨new, some parent, true⟩ := by
  rw [placed, slots_setParent, if_pos rfl, slots_setParents, if_neg h, slots_insert, if_pos rfl]
  rfl

theorem size_placed (d : Document) (new : Node) (parent : NodeId) :
    (d.placed new parent).slots.size = d.slots.size + 1 := by
  have hsize := size_setParents (d.insert new).2 d.slots.size new.children
  simp only [placed, setParent, Array.size_modify, hsize]
  simp [insert]

theorem root_placed (d : Document) (new : Node) (parent : NodeId) :
    (d.placed new parent).root = d.root := by
  have hroot (ids : List NodeId) (d' : Document) :
      (ids.foldl (·.setParent d.slots.size) d').root = d'.root := by
    induction ids generalizing d' with
    | nil => rfl
    | cons id rest ih => rw [List.foldl_cons, ih]; rfl
  exact hroot new.children (d.insert new).2

theorem slots_redirect (d : Document) (parent old new x : NodeId) :
    (d.redirect parent old new).slots[x]? =
      if parent = x then
        d.slots[x]?.map fun slot =>
          { slot with node := { slot.node with content := slot.node.content.redirect old new } }
      else d.slots[x]? := by
  simp only [redirect]
  rw [Array.getElem?_modify]

theorem retired_of_replace (h : d.replace old new = .ok (id, d')) :
    id = d.slots.size ∧ ∃ parent e, d.parent? old = some parent ∧
      (∀ c ∈ new.children, d.Adoptable old c) ∧
      (d.placed new parent).Retired e (fun x => x = old ∨ ∃ c ∈ d.children old, c ∉ new.children ∧
        (d.placed new parent).Reaches (d.slots.size + 1) c x) ∧
        d' = e.redirect parent old d.slots.size := by
  obtain ⟨slot, parent, hs, hlive, hparent, hcheck, rfl, rfl⟩ := replace_cases h
  have hget : d.get? old = some slot.node := by simp [get?_of_slot hs, hlive]
  have hkids : slot.node.children = d.children old := (children_of_get? hget).symm
  rw [hkids] at hcheck ⊢
  refine ⟨rfl, parent, _, by simp [parent?_of_slot hs, hlive, hparent], ?_, ?_, rfl⟩
  · intro c hc
    exact mayAdopt_ok_iff.mp (checkChildren_ok_iff.mp hcheck c hc)
  · refine ((retired_retireAll _ _).trans (Retired.kill _ old)).mono ?_
    intro x
    simp only [List.mem_filter, List.contains_eq_mem, Bool.not_eq_true',
      decide_eq_false_iff_not, size_placed]
    rw [or_comm]
    simp only [and_assoc]

namespace Retired

variable {e : Document} {parent x : NodeId} {gone : NodeId → Prop}
  (h : (d.placed new parent).Retired e gone)
include h

theorem slots_added (hx : ¬ gone d.slots.size) (hpar : parent ≠ d.slots.size)
    (hnew : d.slots.size ∉ new.children) :
    (e.redirect parent old d.slots.size).slots[d.slots.size]? = some ⟨new, some parent, true⟩ := by
  rw [slots_redirect, if_neg hpar, h.kept _ hx, slots_placed_new hnew]

theorem isLive_gone (hx : gone x) : (e.redirect parent old d.slots.size).isLive x = false := by
  rw [isLive, get?, slots_redirect, h.dropped x hx]
  by_cases hp : parent = x
  · rw [if_pos hp]
    cases (d.placed new parent).slots[x]? <;> rfl
  · rw [if_neg hp]
    cases (d.placed new parent).slots[x]? <;> rfl

theorem slots_kept (hne : x ≠ d.slots.size) (hx : ¬ gone x) :
    (e.redirect parent old d.slots.size).slots[x]? =
      d.slots[x]?.map (keptSlot old new parent d.slots.size x) := by
  rw [slots_redirect, h.kept x hx, slots_placed hne]
  unfold keptSlot
  by_cases hp : x = parent
  · rw [if_pos hp.symm]
    simp only [if_pos hp]
    split <;> cases d.slots[x]? <;> rfl
  · rw [if_neg (Ne.symm hp)]
    simp only [if_neg hp]
    split <;> cases d.slots[x]? <;> rfl

end Retired

theorem node_of_get? {x : NodeId} {node : Node} (h : d.get? x = some node) :
    d.slots[x]?.map Slot.node = some node := by
  obtain ⟨slot, hs, hslot⟩ := exists_slot_of_isLive (isLive_of_get? h)
  rw [get?_of_slot hs, if_pos hslot] at h
  rw [hs]
  exact h

theorem node_placed {parent x : NodeId} (hx : x ≠ d.slots.size) :
    (d.placed new parent).slots[x]?.map Slot.node = d.slots[x]?.map Slot.node := by
  rw [slots_placed hx]
  split
  · cases d.slots[x]? <;> rfl
  · rfl

theorem node_placed_of_get? {parent x : NodeId} {node : Node} (h : d.get? x = some node) :
    (d.placed new parent).slots[x]?.map Slot.node = some node := by
  rw [node_placed (ne_size_of_isLive (isLive_of_get? h)), node_of_get? h]

theorem node_of_replace (h : d.replace old new = .ok (id, d')) {x : NodeId} (hne : x ≠ d.slots.size)
    (hx : d.parent? old ≠ some x) : d'.slots[x]?.map Slot.node = d.slots[x]?.map Slot.node := by
  obtain ⟨-, parent, e, hheld, -, hretired, rfl⟩ := retired_of_replace h
  have hpar : parent ≠ x := by
    rintro rfl
    exact hx hheld
  rw [slots_redirect, if_neg hpar, hretired.node x, node_placed hne]

theorem Forest.size_not_gone {tops : List NodeId} (hf : d.Forest tops)
    (hold : d.isLive old = true) :
    ¬ d.Gone old new d.slots.size := by
  rintro (he | ⟨c, hc, -, hb⟩)
  · exact ne_size_of_isLive hold he.symm
  · exact ne_size_of_isLive (hf.isLive_of_below hb (hf.isLive_of_child hc)) rfl

theorem Forest.parent_ne_size {tops : List NodeId} (hf : d.Forest tops) {parent : NodeId}
    (h : d.parent? old = some parent) : parent ≠ d.slots.size :=
  ne_size_of_isLive (isLive_of_mem_children ((hf.child_iff parent old).mpr h))

theorem replaced_of_replace {tops : List NodeId} (hf : d.Forest tops)
    (h : d.replace old new = .ok (id, d')) :
    id = d.slots.size ∧ ∃ parent, d.Replaced d' old new parent := by
  obtain ⟨rfl, parent, e, hheld, hadopts, hretired, rfl⟩ := retired_of_replace h
  -- Nothing is retired but what is gone by the child lists of the document before the edit.
  have hretired : (d.placed new parent).Retired e (d.Gone old new) := by
    refine hretired.mono fun x =>
      or_congr Iff.rfl (exists_congr fun c => and_congr_right fun hc => and_congr_right fun _ => ?_)
    exact hf.reaches_iff (fun b node _ => node_placed_of_get?)
      (hf.isLive_of_child hc) (Nat.le_succ _) x
  have hnew : ¬ d.Gone old new d.slots.size := hf.size_not_gone (isLive_of_parent? hheld)
  refine ⟨rfl, parent, hretired.root.trans (root_placed d new parent), ?_,
    hheld, hadopts, ?_, ?_, ?_⟩
  · simp only [redirect, Array.size_modify]
    rw [hretired.size, size_placed]
  · exact hretired.slots_added hnew (hf.parent_ne_size hheld) fun hc =>
      ne_size_of_isLive (hadopts _ hc).1 rfl
  · exact fun x => hretired.isLive_gone
  · exact fun x => hretired.slots_kept

/-! ## The nodes after the step -/

theorem Gone.below {x : NodeId} (h : d.Gone old new x) : d.Below old x := by
  rcases h with rfl | ⟨c, hc, -, hb⟩
  · exact .refl d x
  · exact .head hc hb

namespace Replaced

variable {tops : List NodeId} {parent p c x : NodeId}

theorem get?_new (h : d.Replaced d' old new parent) : d'.get? d.slots.size = some new := by
  simp [get?_of_slot h.added]

theorem parent?_new (h : d.Replaced d' old new parent) : d'.parent? d.slots.size = some parent := by
  simp [parent?_of_slot h.added]

theorem get?_kept (h : d.Replaced d' old new parent) (hne : x ≠ d.slots.size)
    (hx : ¬ d.Gone old new x) (hp : x ≠ parent) : d'.get? x = d.get? x := by
  rw [get?, get?, h.kept x hne hx]
  cases d.slots[x]? with
  | none => rfl
  | some slot => simp [keptSlot, hp]

theorem isLive_kept (h : d.Replaced d' old new parent) (hne : x ≠ d.slots.size)
    (hx : ¬ d.Gone old new x) :
    d'.isLive x = d.isLive x := by
  rw [isLive, isLive, get?, get?, h.kept x hne hx]
  cases d.slots[x]? with
  | none => rfl
  | some slot => by_cases hlive : slot.live = true <;> simp [keptSlot, hlive]

theorem parent?_kept (h : d.Replaced d' old new parent) (hne : x ≠ d.slots.size)
    (hx : ¬ d.Gone old new x) (hc : x ∉ new.children) : d'.parent? x = d.parent? x := by
  rw [parent?, parent?, h.kept x hne hx]
  cases d.slots[x]? with
  | none => rfl
  | some slot => simp [keptSlot, hc]

theorem children_gone (h : d.Replaced d' old new parent) (hx : d.Gone old new x) :
    d'.children x = [] :=
  children_of_dead (by simp [h.gone x hx])

theorem parent?_gone (h : d.Replaced d' old new parent) (hx : d.Gone old new x) :
    d'.parent? x = none := by
  cases hp : d'.parent? x with
  | none => rfl
  | some q => simpa [h.gone x hx] using isLive_of_parent? hp

theorem old_mem (hf : d.Forest tops) (h : d.Replaced d' old new parent) : old ∈ d.children parent :=
  (hf.child_iff parent old).mpr h.held

theorem not_gone_parent (hf : d.Forest tops) (h : d.Replaced d' old new parent) :
    ¬ d.Gone old new parent :=
  fun hg => hf.grounded.not_below_of_child (h.old_mem hf) hg.below

theorem not_gone_top (hf : d.Forest tops) (h : d.Replaced d' old new parent) (hx : x ∈ tops) :
    ¬ d.Gone old new x := by
  intro hg
  rw [hf.eq_of_below_top hx hg.below] at h
  exact hf.not_child_of_top hx (h.old_mem hf)

theorem parent_ne_new (hf : d.Forest tops) (h : d.Replaced d' old new parent) :
    parent ≠ d.slots.size :=
  ne_size_of_isLive (isLive_of_mem_children (h.old_mem hf))

theorem not_gone_adopted (hf : d.Forest tops) (h : d.Replaced d' old new parent)
    (hc : c ∈ new.children) :
    ¬ d.Gone old new c := by
  obtain ⟨hlive, hkid | ⟨hnone, -⟩⟩ := h.adopts c hc
  · rintro (rfl | ⟨k, hk, hdrop, hb⟩)
    · exact hf.grounded.not_below_of_child hkid (.refl d c)
    · rw [hf.eq_of_siblings_above hk hkid hb (.refl d c)] at hdrop
      exact hdrop hc
  · exact h.not_gone_top hf ((hf.mem_tops c).mpr ⟨hlive, hnone⟩)

theorem gone_child_iff (hf : d.Forest tops) (hc : c ∈ d.children p) (hold : c ≠ old)
    (hnew : c ∉ new.children) :
    d.Gone old new c ↔ d.Gone old new p := by
  constructor
  · rintro (he | ⟨k, hk, hdrop, hb⟩)
    · exact absurd he hold
    · by_cases he : c = k
      · subst he
        exact Or.inl (hf.parent_unique hc hk)
      · exact Or.inr ⟨k, hk, hdrop, hf.below_parent hb he hc⟩
  · rintro (rfl | ⟨k, hk, hdrop, hb⟩)
    · exact Or.inr ⟨c, hc, hnew, .refl d c⟩
    · exact Or.inr ⟨k, hk, hdrop, hb.tail hc⟩

theorem parent?_adopted (hf : d.Forest tops) (h : d.Replaced d' old new parent)
    (hc : c ∈ new.children) :
    d'.parent? c = some d.slots.size := by
  have hlive := (h.adopts c hc).1
  obtain ⟨slot, hs, hslot⟩ := exists_slot_of_isLive hlive
  rw [parent?, h.kept c (ne_size_of_isLive hlive) (h.not_gone_adopted hf hc), hs]
  simp [keptSlot, hslot, hc]

theorem get?_parent (hf : d.Forest tops) (h : d.Replaced d' old new parent) :
    ∃ node, d.get? parent = some node ∧ d'.get? parent =
      some { node with content := node.content.redirect old d.slots.size } := by
  obtain ⟨slot, hs, hslot⟩ := exists_slot_of_isLive (isLive_of_mem_children (h.old_mem hf))
  refine ⟨slot.node, by simp [get?_of_slot hs, hslot], ?_⟩
  rw [get?, h.kept parent (h.parent_ne_new hf) (h.not_gone_parent hf), hs]
  simp [keptSlot, hslot]

theorem children_parent (hf : d.Forest tops) (h : d.Replaced d' old new parent) :
    ∃ front back, d.children parent = front ++ old :: back ∧
      d'.children parent = front ++ d.slots.size :: back := by
  obtain ⟨node, hget, hget'⟩ := h.get?_parent hf
  have hmem : old ∈ node.content.children := by rw [← children_of_get? hget]; exact h.old_mem hf
  obtain ⟨front, back, hkids, hkids'⟩ := Content.children_redirect d.slots.size hmem
  exact ⟨front, back, (children_of_get? hget).trans hkids, (children_of_get? hget').trans hkids'⟩

theorem children_kept (h : d.Replaced d' old new parent) (hne : x ≠ d.slots.size)
    (hx : ¬ d.Gone old new x) (hp : x ≠ parent) : d'.children x = d.children x := by
  rw [children, children, h.get?_kept hne hx hp]

theorem mem_children (hf : d.Forest tops) (h : d.Replaced d' old new parent) :
    c ∈ d'.children p ↔ p = d.slots.size ∧ c ∈ new.children ∨ p = parent ∧ c = d.slots.size ∨
      c ∈ d.children p ∧ c ≠ old ∧ ¬ d.Gone old new p := by
  by_cases hnew : p = d.slots.size
  · subst hnew
    have hnone : c ∉ d.children d.slots.size :=
      fun hc => ne_size_of_isLive (isLive_of_mem_children hc) rfl
    have hpar := Ne.symm (h.parent_ne_new hf)
    rw [children_of_get? h.get?_new]
    simp [hnone, hpar, Node.children]
  by_cases hgone : d.Gone old new p
  · have hpar : p ≠ parent := by
      rintro rfl
      exact h.not_gone_parent hf hgone
    simp [h.children_gone hgone, hnew, hgone, hpar]
  by_cases hpar : p = parent
  · subst hpar
    obtain ⟨front, back, hkids, hkids'⟩ := h.children_parent hf
    have hnodup := hf.children_nodup p
    rw [hkids, List.nodup_middle, List.nodup_cons, List.mem_append] at hnodup
    rw [hkids, hkids']
    simp only [List.mem_append, List.mem_cons]
    grind
  · have hkid (hc : c ∈ d.children p) : c ≠ old := by
      rintro rfl
      exact hpar (hf.parent_unique hc (h.old_mem hf))
    rw [h.children_kept hnew hgone hpar]
    simp only [hnew, hpar, hgone, false_and, false_or, not_false_eq_true, and_true]
    exact ⟨fun hc => ⟨hc, hkid hc⟩, fun hc => hc.1⟩

/-! ## The forest after the step -/

theorem mem_tops (hf : d.Forest tops) (h : d.Replaced d' old new parent) :
    x ∈ tops.filter (· ∉ new.children) ↔ d'.isLive x = true ∧ d'.parent? x = none := by
  rw [List.mem_filter, decide_eq_true_eq]
  by_cases hnew : x = d.slots.size
  · have hx : x ∉ tops := fun hx => ne_size_of_isLive ((hf.mem_tops x).mp hx).1 hnew
    rw [hnew, h.parent?_new, ← hnew]
    simp [hx]
  by_cases hgone : d.Gone old new x
  · have hx : x ∉ tops := fun hx => h.not_gone_top hf hx hgone
    rw [h.gone x hgone]
    simp [hx]
  by_cases hc : x ∈ new.children
  · rw [h.parent?_adopted hf hc]
    simp [hc]
  · rw [h.isLive_kept hnew hgone, h.parent?_kept hnew hgone hc, hf.mem_tops]
    simp [hc]

theorem child_iff (hf : d.Forest tops) (h : d.Replaced d' old new parent) :
    c ∈ d'.children p ↔ d'.parent? c = some p := by
  rw [h.mem_children hf]
  by_cases hnew : c = d.slots.size
  · subst hnew
    have hnone : d.slots.size ∉ new.children := fun hc => ne_size_of_isLive (h.adopts _ hc).1 rfl
    have hnone' : d.slots.size ∉ d.children p :=
      fun hc => ne_size_of_isLive (hf.isLive_of_child hc) rfl
    rw [h.parent?_new]
    simp [hnone, hnone', eq_comm]
  by_cases hc : c ∈ new.children
  · have hkid : ¬ (c ∈ d.children p ∧ c ≠ old ∧ ¬ d.Gone old new p) := by
      rintro ⟨hcp, -, hp⟩
      obtain ⟨-, hold | ⟨hnone, -⟩⟩ := h.adopts c hc
      · exact hp (Or.inl (hf.parent_unique hcp hold))
      · rw [hf.child_iff, hnone] at hcp
        simp at hcp
    rw [h.parent?_adopted hf hc]
    simp only [hc, hnew, hkid, and_true, and_false, or_false, Option.some.injEq, eq_comm]
  by_cases hgone : d.Gone old new c
  · rw [h.parent?_gone hgone]
    simp only [hc, hnew, and_false, false_or, reduceCtorEq, iff_false]
    rintro ⟨hcp, hold, hp⟩
    exact hp ((gone_child_iff hf hcp hold hc).mp hgone)
  · have hold : c ≠ old := fun he => hgone (Or.inl he)
    rw [h.parent?_kept hnew hgone hc, ← hf.child_iff]
    simp only [hc, hnew, hold, and_false, false_or, ne_eq, not_false_eq_true,
      true_and, and_iff_left_iff_imp]
    intro hcp hp
    exact hgone ((gone_child_iff hf hcp hold hc).mpr hp)

theorem children_nodup (hf : d.Forest tops) (h : d.Replaced d' old new parent)
    (hnodup : new.children.Nodup) :
    (d'.children p).Nodup := by
  by_cases hnew : p = d.slots.size
  · rw [hnew, children_of_get? h.get?_new]
    exact hnodup
  by_cases hgone : d.Gone old new p
  · rw [h.children_gone hgone]
    exact List.nodup_nil
  by_cases hpar : p = parent
  · subst hpar
    obtain ⟨front, back, hkids, hkids'⟩ := h.children_parent hf
    have hold := hf.children_nodup p
    have hfresh (hc : d.slots.size ∈ d.children p) := ne_size_of_isLive (hf.isLive_of_child hc) rfl
    rw [hkids, List.nodup_middle, List.nodup_cons] at hold
    rw [hkids', List.nodup_middle, List.nodup_cons]
    refine ⟨fun hc => hfresh ?_, hold.2⟩
    rw [hkids, List.mem_append, List.mem_cons]
    rcases List.mem_append.mp hc with hc | hc
    · exact Or.inl hc
    · exact Or.inr (Or.inr hc)
  · rw [h.children_kept hnew hgone hpar]
    exact hf.children_nodup p

theorem grounded (hf : d.Forest tops) (h : d.Replaced d' old new parent)
    (hleaf : ∀ c ∈ new.children, d.parent? c = none → d.children c = []) : d'.Grounded := by
  -- The new node takes the rank of the old one, and an adopted node, which has no children, the
  -- lowest.
  obtain ⟨rank, hbound, hrank⟩ := hf.grounded
  have holdlt := hrank parent old (h.old_mem hf)
  have holdlive := hbound old (hf.isLive_of_child (h.old_mem hf))
  -- A node with a child was not waiting for a parent.
  have hinner (p c : NodeId) (hc : c ∈ d.children p) :
      ¬ (p ∈ new.children ∧ d.parent? p = none) := by
    rintro ⟨hp, hnone⟩
    rw [hleaf p hp hnone] at hc
    simp at hc
  have hheld (p c : NodeId) (hc : c ∈ d.children p) :
      ¬ (c ∈ new.children ∧ d.parent? c = none) := by
    rw [(hf.child_iff p c).mp hc]
    simp
  have hold (p c : NodeId) (hc : c ∈ d.children p) : p ≠ d.slots.size ∧ c ≠ d.slots.size :=
    ⟨ne_size_of_isLive (isLive_of_mem_children hc), ne_size_of_isLive (hf.isLive_of_child hc)⟩
  refine ⟨fun x => if x = d.slots.size then rank old + 1
    else if x ∈ new.children ∧ d.parent? x = none then 0 else rank x + 1, ?_, ?_⟩
  · intro x hx
    simp only [h.size]
    split
    · omega
    · rename_i hne
      split
      · omega
      · have hgone : ¬ d.Gone old new x := by
          intro hg
          simp [h.gone x hg] at hx
        rw [h.isLive_kept hne hgone] at hx
        have := hbound x hx
        omega
  · intro p c hmem
    beta_reduce
    rcases (h.mem_children hf).mp hmem with ⟨rfl, hc⟩ | ⟨rfl, rfl⟩ | ⟨hc, -, -⟩
    · rw [if_pos rfl, if_neg (ne_size_of_isLive (h.adopts c hc).1)]
      split
      · omega
      · rename_i hnone
        obtain ⟨-, hkid | ⟨hwait, -⟩⟩ := h.adopts c hc
        · have := hrank old c hkid
          omega
        · exact absurd ⟨hc, hwait⟩ hnone
    · rw [if_pos rfl, if_neg (h.parent_ne_new hf), if_neg (hinner p old (h.old_mem hf))]
      omega
    · rw [if_neg (hold p c hc).1, if_neg (hold p c hc).2, if_neg (hinner p c hc),
        if_neg (hheld p c hc)]
      have := hrank p c hc
      omega

end Replaced

/-- The tops that are left are those the new node did not adopt. -/
theorem Forest.replace {tops : List NodeId} {parent : NodeId} (hf : d.Forest tops)
    (h : d.Replaced d' old new parent) (hnodup : new.children.Nodup)
    (hleaf : ∀ c ∈ new.children, d.parent? c = none → d.children c = []) :
    d'.Forest (tops.filter (· ∉ new.children)) :=
  ⟨hf.tops_nodup.filter _, fun _ => h.mem_tops hf, fun _ _ => h.child_iff hf,
    fun _ => h.children_nodup hf hnodup, h.grounded hf hleaf⟩

end TemplateLint.Document
