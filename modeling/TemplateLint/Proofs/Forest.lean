import Mathlib.Data.List.Chain
import Mathlib.Logic.Relation
import TemplateLint.Proofs.Items

/-!
# Forests

The live nodes of a document form a forest: child lists and parent links agree, no node is its own
descendant, and the nodes without a parent are the given tops. Main statements: the text of a node
is its content around the texts of its children (`text_eq_render`), texts depend only on what is
below (`text_congr`), and each node is reached from a top by one path only (`existsUnique_path`).
-/

namespace TemplateLint.Document

open Relation

variable {d d' : Document} {id p c : NodeId} {node : Node}

/-! ## Live nodes and their children -/

theorem isLive_iff : d.isLive id = true ↔ ∃ node, d.get? id = some node := by
  rw [isLive, Option.isSome_iff_exists]

theorem get?_of_slot {slot : Slot} (h : d.slots[id]? = some slot) :
    d.get? id = if slot.live then some slot.node else none := by
  simp only [get?, h]

theorem parent?_of_slot {slot : Slot} (h : d.slots[id]? = some slot) :
    d.parent? id = if slot.live then slot.parent else none := by
  simp only [parent?, h]

theorem isLive_of_get? (h : d.get? id = some node) : d.isLive id = true := isLive_iff.mpr ⟨node, h⟩

theorem children_of_get? (h : d.get? id = some node) : d.children id = node.content.children := by
  rw [children, h]; rfl

theorem children_of_dead (h : ¬ d.isLive id = true) : d.children id = [] := by
  rw [isLive, Option.not_isSome_iff_eq_none] at h
  rw [children, h]

theorem isLive_of_mem_children (h : c ∈ d.children p) : d.isLive p = true := by
  by_contra hdead
  rw [children_of_dead hdead] at h
  simp at h

theorem isLive_of_parent? (h : d.parent? c = some p) : d.isLive c = true := by
  cases hs : d.slots[c]? with
  | none => simp [parent?, hs] at h
  | some slot =>
    rw [parent?_of_slot hs] at h
    have hlive : slot.live = true := by
      by_contra hdead
      simp [hdead] at h
    simp [isLive, get?_of_slot hs, hlive]

theorem exists_slot_of_isLive (h : d.isLive id = true) :
    ∃ slot, d.slots[id]? = some slot ∧ slot.live = true := by
  cases hs : d.slots[id]? with
  | none => simp [isLive, get?, hs] at h
  | some slot =>
    refine ⟨slot, rfl, ?_⟩
    by_contra hdead
    simp [isLive, get?_of_slot hs, hdead] at h

theorem slot_of_get? (h : d.get? id = some node) :
    ∃ slot, d.slots[id]? = some slot ∧ slot.node = node := by
  obtain ⟨slot, hslot, hlive⟩ := exists_slot_of_isLive (isLive_of_get? h)
  rw [get?_of_slot hslot, if_pos hlive] at h
  exact ⟨slot, hslot, Option.some.inj h⟩

theorem lt_size_of_isLive (h : d.isLive id = true) : id < d.slots.size := by
  obtain ⟨slot, hs, -⟩ := exists_slot_of_isLive h
  exact (Array.getElem?_eq_some_iff.mp hs).1

theorem ne_size_of_isLive (h : d.isLive id = true) : id ≠ d.slots.size :=
  Nat.ne_of_lt (lt_size_of_isLive h)

/-! ## Grounded documents -/

/-- Going down from a node ends: children rank lower, and no rank exceeds the size of the table. -/
def Grounded (d : Document) : Prop :=
  ∃ rank : NodeId → Nat, (∀ id, d.isLive id = true → rank id < d.slots.size) ∧
    ∀ p, ∀ c ∈ d.children p, rank c < rank p

theorem Grounded.induct (hg : d.Grounded) {P : NodeId → Prop}
    (h : ∀ id, (∀ c ∈ d.children id, P c) → P id) (id : NodeId) : P id := by
  obtain ⟨rank, -, hrank⟩ := hg
  induction hn : rank id using Nat.strongRecOn generalizing id with
  | _ n ih =>
    apply h
    intro c hc
    exact ih (rank c) (by rw [← hn]; exact hrank id c hc) c rfl

theorem tokensTo_of_dead (h : d.get? id = none) (depth : Nat) : d.tokensTo depth id = [] := by
  cases depth <;> simp [tokensTo, h]

theorem tokensTo_eq_of_rank {rank : NodeId → Nat} (hrank : ∀ p, ∀ c ∈ d.children p, rank c < rank p)
    {n m : Nat} (hn : rank id < n) (hm : rank id < m) : d.tokensTo n id = d.tokensTo m id := by
  induction n generalizing m id with
  | zero => omega
  | succ n ih =>
    obtain ⟨m, rfl⟩ : ∃ k, m = k + 1 := ⟨m - 1, by omega⟩
    cases hget : d.get? id with
    | none => rw [tokensTo_of_dead hget, tokensTo_of_dead hget]
    | some node =>
      simp only [tokensTo, hget]
      apply List.flatMap_congr
      intro item hitem
      cases item with
      | token t => rfl
      | child c =>
        have hc :=
          hrank id c (by rw [children_of_get? hget]; exact (Content.mem_children_iff _ c).mpr hitem)
        exact ih (by omega) (by omega)

theorem Grounded.tokens_eq (hg : d.Grounded) (hget : d.get? id = some node) :
    d.tokens id = node.content.items.flatMap (Item.tokens d.tokens) := by
  obtain ⟨rank, hbound, hrank⟩ := hg
  have hid := hbound id (isLive_of_get? hget)
  obtain ⟨k, hk⟩ : ∃ k, d.slots.size = k + 1 := ⟨d.slots.size - 1, by omega⟩
  rw [tokens, hk, tokensTo]
  simp only [hget]
  apply List.flatMap_congr
  intro item hitem
  cases item with
  | token t => rfl
  | child c =>
    have hc :=
      hrank id c (by rw [children_of_get? hget]; exact (Content.mem_children_iff _ c).mpr hitem)
    exact tokensTo_eq_of_rank hrank (by omega) (by omega)

theorem Grounded.text_eq_render (hg : d.Grounded) (hget : d.get? id = some node) :
    d.text id = node.content.render d.text := by
  rw [text_eq_tokens, hg.tokens_eq hget, List.flatMap_assoc, Content.render_eq_items,
    funext d.text_eq_tokens]
  apply List.flatMap_congr
  intro item _
  exact Item.text_tokens _ item

theorem text_of_dead (h : d.get? id = none) : d.text id = [] := by
  rw [text_eq_tokens, tokens, tokensTo_of_dead h]; rfl

theorem text_congr (hg : d.Grounded) (hg' : d'.Grounded) {S : NodeId → Prop}
    (hS : ∀ id, S id → d'.get? id = d.get? id ∧ ∀ c ∈ d.children id, S c) (hid : S id) :
    d'.text id = d.text id := by
  revert hid
  induction id using hg.induct with
  | h id ih =>
    intro hid
    obtain ⟨hsame, hclosed⟩ := hS id hid
    cases hget : d.get? id with
    | none => rw [text_of_dead hget, text_of_dead (hsame.trans hget)]
    | some node =>
      rw [hg.text_eq_render hget, hg'.text_eq_render (hsame.trans hget)]
      apply Content.render_congr
      intro c hc
      rw [← children_of_get? hget] at hc
      exact ih c hc (hclosed c hc)

/-! ## Descendants -/

/-- `b` is `a` or stands below it. -/
def Below (d : Document) (a b : NodeId) : Prop := ReflTransGen (fun p c => c ∈ d.children p) a b

namespace Below

variable {a b x : NodeId}

theorem refl (d : Document) (a : NodeId) : d.Below a a := ReflTransGen.refl

theorem trans (h : d.Below a b) (h' : d.Below b x) : d.Below a x := ReflTransGen.trans h h'

theorem head (h : b ∈ d.children a) (h' : d.Below b x) : d.Below a x := ReflTransGen.head h h'

theorem tail (h : d.Below a b) (h' : x ∈ d.children b) : d.Below a x := ReflTransGen.tail h h'

theorem cases_head (h : d.Below a x) : a = x ∨ ∃ b ∈ d.children a, d.Below b x :=
  ReflTransGen.cases_head h

theorem cases_tail (h : d.Below a x) : x = a ∨ ∃ b, d.Below a b ∧ x ∈ d.children b :=
  ReflTransGen.cases_tail h

theorem rank_le {rank : NodeId → Nat} (hrank : ∀ p, ∀ c ∈ d.children p, rank c < rank p)
    (h : d.Below a b) : rank b ≤ rank a := by
  induction h with
  | refl => exact Nat.le_refl _
  | tail _ hc ih => exact Nat.le_trans (Nat.le_of_lt (hrank _ _ hc)) ih

end Below

theorem Grounded.not_below_of_child (hg : d.Grounded) (h : c ∈ d.children p) : ¬ d.Below c p := by
  obtain ⟨rank, -, hrank⟩ := hg
  intro hb
  have hle := hb.rank_le hrank
  have hlt := hrank p c h
  omega

/-! ## Forests -/

/-- The live nodes form trees with the given tops. -/
structure Forest (d : Document) (tops : List NodeId) : Prop where
  tops_nodup : tops.Nodup
  mem_tops : ∀ id, id ∈ tops ↔ d.isLive id = true ∧ d.parent? id = none
  child_iff : ∀ p c, c ∈ d.children p ↔ d.parent? c = some p
  children_nodup : ∀ p, (d.children p).Nodup
  grounded : d.Grounded

namespace Forest

variable {tops : List NodeId} {a b x : NodeId}

theorem isLive_of_child (hf : d.Forest tops) (h : c ∈ d.children p) : d.isLive c = true :=
  isLive_of_parent? ((hf.child_iff p c).mp h)

theorem isLive_of_below (hf : d.Forest tops) (h : d.Below a b) (ha : d.isLive a = true) :
    d.isLive b = true := by
  rcases h.cases_tail with rfl | ⟨q, -, hq⟩
  · exact ha
  · exact hf.isLive_of_child hq

theorem parent_unique (hf : d.Forest tops) {q : NodeId} (h : c ∈ d.children p)
    (h' : c ∈ d.children q) :
    p = q := by
  rw [hf.child_iff] at h h'
  exact Option.some.inj (h.symm.trans h')

theorem not_child_of_top (hf : d.Forest tops) (h : x ∈ tops) : x ∉ d.children p := by
  intro hc
  have hp := (hf.child_iff p x).mp hc
  rw [((hf.mem_tops x).mp h).2] at hp
  simp at hp

theorem eq_of_below_top (hf : d.Forest tops) (hx : x ∈ tops) (h : d.Below a x) : a = x := by
  rcases h.cases_tail with rfl | ⟨q, -, hq⟩
  · rfl
  · exact absurd hq (hf.not_child_of_top hx)

theorem below_total (hf : d.Forest tops) (ha : d.Below a x) (hb : d.Below b x) :
    d.Below a b ∨ d.Below b a := by
  have hunique : Relator.RightUnique (Function.swap fun p c => c ∈ d.children p) :=
    fun _ _ _ h h' => hf.parent_unique h h'
  rcases ReflTransGen.total_of_right_unique hunique (reflTransGen_swap.mpr ha)
    (reflTransGen_swap.mpr hb)
    with h | h
  · exact Or.inr (reflTransGen_swap.mp h)
  · exact Or.inl (reflTransGen_swap.mp h)

theorem below_parent (hf : d.Forest tops) (h : d.Below a x) (hne : x ≠ a) (hx : x ∈ d.children p) :
    d.Below a p := by
  rcases h.cases_tail with he | ⟨q, hq, hc⟩
  · exact absurd he hne
  · rw [hf.parent_unique hx hc]; exact hq

theorem eq_of_siblings_above (hf : d.Forest tops) (ha : a ∈ d.children p) (hb : b ∈ d.children p)
    (hax : d.Below a x) (hbx : d.Below b x) : a = b := by
  by_contra hne
  rcases hf.below_total hax hbx with h | h
  · exact hf.grounded.not_below_of_child ha (hf.below_parent h (Ne.symm hne) hb)
  · exact hf.grounded.not_below_of_child hb (hf.below_parent h hne ha)

theorem exists_top_above (hf : d.Forest tops) (hx : d.isLive x = true) :
    ∃ t ∈ tops, d.Below t x := by
  obtain ⟨rank, hbound, hrank⟩ := hf.grounded
  -- Ranks grow on the way up and stay below the size of the table.
  induction hn : d.slots.size - rank x using Nat.strongRecOn generalizing x with
  | _ n ih =>
    cases hp : d.parent? x with
    | none => exact ⟨x, (hf.mem_tops x).mpr ⟨hx, hp⟩, .refl d x⟩
    | some q =>
      have hq := (hf.child_iff q x).mpr hp
      have hlive := isLive_of_mem_children hq
      have hlt := hrank q x hq
      have hsize := hbound q hlive
      obtain ⟨t, ht, hb⟩ := ih (d.slots.size - rank q) (by omega) hlive rfl
      exact ⟨t, ht, hb.tail hq⟩

theorem below_of_top_eq {t : NodeId} (hf : d.Forest [t]) (hx : d.isLive x = true) :
    d.Below t x := by
  obtain ⟨t', ht, hb⟩ := hf.exists_top_above hx
  rw [List.mem_singleton.mp ht] at hb
  exact hb

end Forest

/-! ## Paths -/

/-- The ids on a way down from `a` to `b`, both included. -/
structure IsPath (d : Document) (a b : NodeId) (path : List NodeId) : Prop where
  head : path.head? = some a
  last : path.getLast? = some b
  steps : path.IsChain fun p c => c ∈ d.children p

theorem IsPath.refl (d : Document) (a : NodeId) : d.IsPath a a [a] := ⟨rfl, rfl, .singleton a⟩

theorem IsPath.snoc {a b c : NodeId} {path : List NodeId} (h : d.IsPath a b path)
    (hc : c ∈ d.children b) :
    d.IsPath a c (path ++ [c]) := by
  refine ⟨by simp [h.head], by simp, ?_⟩
  rw [List.isChain_append]
  refine ⟨h.steps, .singleton c, ?_⟩
  intro x hx y hy
  rw [h.last] at hx
  simp only [Option.mem_def, Option.some.injEq, List.head?_cons] at hx hy
  rw [← hx, ← hy]
  exact hc

theorem IsPath.cases_snoc {a b : NodeId} {path : List NodeId} (h : d.IsPath a b path) :
    path = [a] ∧ a = b ∨ ∃ front q, path = front ++ [b] ∧ d.IsPath a q front ∧
      b ∈ d.children q := by
  obtain ⟨front, rfl⟩ := List.getLast?_eq_some_iff.mp h.last
  cases hq : front.getLast? with
  | none =>
    obtain rfl := List.getLast?_eq_none_iff.mp hq
    obtain rfl : b = a := by simpa using h.head
    exact Or.inl ⟨rfl, rfl⟩
  | some q =>
    have hchain := List.isChain_append.mp h.steps
    have hne : front ≠ [] := by
      rintro rfl
      simp at hq
    refine Or.inr ⟨front, q, rfl, ⟨?_, hq, hchain.1⟩, hchain.2.2 q hq b rfl⟩
    rw [← h.head, List.head?_append_of_ne_nil front hne]

/-- One path only leads from a top to a node of its tree. -/
theorem Forest.existsUnique_path {tops : List NodeId} (hf : d.Forest tops)
    {t x : NodeId} (ht : t ∈ tops) (hx : d.Below t x) : ∃! path, d.IsPath t x path := by
  induction hx with
  | refl =>
    refine ⟨[t], .refl d t, ?_⟩
    intro path hpath
    rcases hpath.cases_snoc with ⟨he, -⟩ | ⟨_, q, -, -, hq⟩
    · exact he
    · exact absurd hq (hf.not_child_of_top ht)
  | @tail b c hb hc ih =>
    obtain ⟨front, hfront, hunique⟩ := ih
    refine ⟨front ++ [c], hfront.snoc hc, ?_⟩
    intro path hpath
    rcases hpath.cases_snoc with ⟨-, rfl⟩ | ⟨front', q, rfl, hfront', hq⟩
    · exact absurd hc (hf.not_child_of_top ht)
    · rw [hf.parent_unique hq hc] at hfront'
      rw [hunique front' hfront']

end TemplateLint.Document
