import TemplateLint.Document.Basic

/-!
# Visits

A walk goes through the live nodes of a document, each before its children, and gives a list of
visits. Whoever walks says below which nodes it does not go.
-/

namespace TemplateLint

/-- A node reached in a walk; `ancestors` are the nodes above it, nearest first. -/
structure Visit where
  id : NodeId
  node : Node
  ancestors : List NodeId
  deriving DecidableEq, Repr

def Visit.parent? (v : Visit) : Option NodeId := v.ancestors.head?

namespace Document

/-- The visits from `id` on, down to `depth` levels below it. -/
def visitsTo (d : Document) (skip : Visit → Bool) :
    (depth : Nat) → (ancestors : List NodeId) → NodeId → List Visit
  | 0, _, _ => []
  | depth + 1, ancestors, id =>
    match d.get? id with
    | none => []
    | some node =>
      let visit := ⟨id, node, ancestors⟩
      if skip visit then [visit]
      else visit :: node.children.flatMap (d.visitsTo skip depth (id :: ancestors))

/-- The same visits in front of `later` ones, each put in its place once, however deep it is. -/
def visitsOnto (d : Document) (skip : Visit → Bool) :
    (depth : Nat) → (ancestors : List NodeId) → NodeId → (later : List Visit) → List Visit
  | 0, _, _, later => later
  | depth + 1, ancestors, id, later =>
    match d.get? id with
    | none => later
    | some node =>
      let visit := ⟨id, node, ancestors⟩
      if skip visit then visit :: later
      else visit :: node.children.foldr (d.visitsOnto skip depth (id :: ancestors)) later

theorem visitsOnto_eq (d : Document) (skip : Visit → Bool) (depth : Nat) (ancestors : List NodeId)
    (id : NodeId) (later : List Visit) :
    d.visitsOnto skip depth ancestors id later = d.visitsTo skip depth ancestors id ++ later := by
  induction depth generalizing ancestors id later with
  | zero => rfl
  | succ depth ih =>
    have children (ids : List NodeId) :
        ids.foldr (d.visitsOnto skip depth (id :: ancestors)) later =
          ids.flatMap (d.visitsTo skip depth (id :: ancestors)) ++ later := by
      induction ids with
      | nil => rfl
      | cons first rest ihr => simp [ihr, ih]
    simp only [visitsOnto, visitsTo]
    split
    · rfl
    · split
      · rfl
      · simp [children]

/-- The visits of a walk from the root that does not go below nodes with `skip`. -/
def visits (d : Document) (skip : Visit → Bool) : List Visit :=
  d.visitsOnto skip d.slots.size [] d.root []

theorem visits_eq (d : Document) (skip : Visit → Bool) :
    d.visits skip = d.visitsTo skip d.slots.size [] d.root := by
  simp [visits, visitsOnto_eq]

/-- The visits of all nodes. -/
def allVisits (d : Document) : List Visit := d.visits fun _ => false

/-- The names of the elements around a visited node, nearest first. -/
def enclosingTags (d : Document) (v : Visit) : List String := v.ancestors.filterMap d.tagName?

end Document

end TemplateLint
