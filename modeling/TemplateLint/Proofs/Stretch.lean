import TemplateLint.Proofs.Growth

/-!
# Stretches

A stretch is an item with the text it stands for. A run is a row of stretches without gaps: each one
starts where the text of the one before it ends. In an exact document every node is such a run over
its own location.
-/

namespace TemplateLint

structure Stretch where
  item : Item
  text : List Char
  deriving Repr

namespace Stretch

def spelled (run : List Stretch) : List Char := run.flatMap text

def nodes (run : List Stretch) : List NodeId := (run.map item).filterMap Item.child?

@[simp] theorem spelled_nil : spelled [] = [] := rfl

@[simp] theorem spelled_cons (s : Stretch) (run : List Stretch) :
    spelled (s :: run) = s.text ++ spelled run := by
  simp [spelled]

@[simp] theorem spelled_append (a b : List Stretch) :
    spelled (a ++ b) = spelled a ++ spelled b := by
  simp [spelled]

@[simp] theorem nodes_append (a b : List Stretch) : nodes (a ++ b) = nodes a ++ nodes b := by
  simp [nodes]

theorem nodes_cons_token {s : Stretch} {t : Token} (h : s.item = .token t) (run : List Stretch) :
    nodes (s :: run) = nodes run := by
  rw [nodes, List.map_cons, h]
  rfl

theorem nodes_cons_child {s : Stretch} {id : NodeId} (h : s.item = .child id) (run : List Stretch) :
    nodes (s :: run) = id :: nodes run := by
  rw [nodes, List.map_cons, h]
  rfl

theorem nodes_of_items {run : List Stretch} {c : Content} (h : run.map item = c.items) :
    nodes run = c.children := by
  rw [nodes, h, ← Content.children_eq_items]

theorem mem_nodes {run : List Stretch} {s : Stretch} {id : NodeId} (hs : s ∈ run)
    (hid : s.item = .child id) :
    id ∈ nodes run := by
  rw [nodes, Item.mem_filterMap_child?, ← hid]
  exact List.mem_map_of_mem hs

end Stretch

open Stretch

namespace Document

variable {d d' : Document} {p : Position}

def place (d : Document) : Item → Option Location
  | .token t => some t.location
  | .child id => d.location? id

/-- The stretches stand one after the other from `p` on, each over its own text. -/
def Runs (d : Document) (p : Position) : List Stretch → Prop
  | [] => True
  | s :: rest =>
    (d.place s.item = some ⟨p, p.advance s.text⟩ ∧ s.item.text d.text = s.text) ∧
      d.Runs (p.advance s.text) rest

/-- Every node is a run of its items over its location. -/
def Exact (d : Document) : Prop :=
  ∀ id node, d.get? id = some node → ∃ run : List Stretch, run.map item = node.content.items ∧
    d.Runs node.location.start run ∧ node.location.stop = node.location.start.advance (spelled run)

theorem runs_append (a b : List Stretch) :
    d.Runs p (a ++ b) ↔ d.Runs p a ∧ d.Runs (p.advance (spelled a)) b := by
  induction a generalizing p with
  | nil => simp [Runs]
  | cons s rest ih =>
    simp only [List.cons_append, Runs, ih, spelled_cons, Position.advance_append]
    tauto

theorem Runs.congr {run : List Stretch} (h : d.Runs p run)
    (hsame : ∀ id ∈ nodes run, d'.get? id = d.get? id ∧ d'.text id = d.text id) :
    d'.Runs p run := by
  induction run generalizing p with
  | nil => trivial
  | cons s rest ih =>
    obtain ⟨hs, hrest⟩ := h
    refine ⟨?_, ih hrest ?_⟩
    · cases hitem : s.item with
      | token t => simpa [hitem, place, Item.text] using hs
      | child id =>
        obtain ⟨hget, htext⟩ := hsame id (mem_nodes List.mem_cons_self hitem)
        simpa only [hitem, place, Item.text, location?, hget, htext] using hs
    · intro id hid
      apply hsame
      rw [← List.singleton_append, nodes_append]
      exact List.mem_append_right _ hid

theorem Runs.spelled_eq {run : List Stretch} (h : d.Runs p run) :
    (run.map item).flatMap (Item.text d.text) = spelled run := by
  induction run generalizing p with
  | nil => rfl
  | cons s rest ih =>
    obtain ⟨⟨-, htext⟩, hrest⟩ := h
    rw [List.map_cons, List.flatMap_cons, htext, ih hrest, spelled_cons]

theorem Grounded.text_of_runs (hg : d.Grounded) {id : NodeId} {node : Node}
    (hget : d.get? id = some node) {run : List Stretch}
    (hitems : run.map item = node.content.items) (h : d.Runs p run) :
    d.text id = spelled run := by
  rw [hg.text_eq_render hget, Content.render_eq_items, ← hitems, h.spelled_eq]

theorem Exact.grow {node : Node} (he : d.Exact) {tops : List NodeId}
    (hf : d.Forest tops) (h : d.Grows d' node) (hg : d'.Grounded) {run : List Stretch}
    (hitems : run.map item = node.content.items) (hlive : ∀ id ∈ nodes run, d.isLive id = true)
    (hrun : d.Runs node.location.start run)
    (hstop : node.location.stop = node.location.start.advance (spelled run)) : d'.Exact := by
  have hsame (run : List Stretch) (hl : ∀ id ∈ nodes run, d.isLive id = true) :
      ∀ id ∈ nodes run, d'.get? id = d.get? id ∧ d'.text id = d.text id := by
    intro id hid
    have hne : id ≠ d.slots.size := Nat.ne_of_lt (lt_size_of_isLive (hl id hid))
    exact ⟨h.get?_old hne, hf.text_grow h hg hne⟩
  intro id other hget
  by_cases hid : id = d.slots.size
  · subst hid
    obtain rfl : node = other := Option.some.inj (h.get?_new.symm.trans hget)
    exact ⟨run, hitems, hrun.congr (hsame run hlive), hstop⟩
  · rw [h.get?_old hid] at hget
    obtain ⟨run', hitems', hrun', hstop'⟩ := he id other hget
    refine ⟨run', hitems', hrun'.congr (hsame run' ?_), hstop'⟩
    intro c hc
    rw [nodes_of_items hitems', ← children_of_get? hget] at hc
    exact hf.isLive_of_child hc

end Document

end TemplateLint
