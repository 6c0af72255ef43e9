import TemplateLint.Document.Basic

/-!
# Edits

A document changes by new nodes. A node stands detached when it is inserted; it becomes part of the
tree when it replaces a node, or when a node that replaces one names it as a child. A replacement
may keep children of the node it replaces and adopt detached nodes, and no others. What it does not
keep is retired: its slots stay but are live no more. A failed edit changes nothing.
-/

namespace TemplateLint

inductive TreeError where
  | unknownNode (id : NodeId)
  | staleNode (id : NodeId)
  | foreignChild (old child : NodeId)
  | rootReplacement
  deriving DecidableEq, Repr

def TreeError.message : TreeError → String
  | unknownNode id => s!"node {id.display} does not exist in this document"
  | staleNode id => s!"node {id.display} is stale: it was replaced earlier in this pass"
  | foreignChild old child =>
    s!"replacement for {old.display} references {child.display}, which is not one of its children"
  | rootReplacement => "the document root cannot be replaced"

namespace Document

/-- The slot of a live node. -/
def liveSlot (d : Document) (id : NodeId) : Except TreeError Slot :=
  match d.slots[id]? with
  | none => .error (.unknownNode id)
  | some slot => if slot.live then .ok slot else .error (.staleNode id)

/-- The node of an id that must be live. -/
def node (d : Document) (id : NodeId) : Except TreeError Node := (d.liveSlot id).map (·.node)

/-! ## Steps -/

/-- Adds a detached node. -/
def insert (d : Document) (node : Node) : NodeId × Document :=
  (d.slots.size, { d with slots := d.slots.push ⟨node, none, true⟩ })

def setParent (d : Document) (parent child : NodeId) : Document :=
  { d with slots := d.slots.modify child fun slot => { slot with parent := some parent } }

/-- Makes one node live no more. -/
def kill (d : Document) (id : NodeId) : Document :=
  { d with slots := d.slots.modify id fun slot => { slot with live := false } }

/-- Retires a node and what it holds, down to `depth` levels below it. -/
def retireTo : (depth : Nat) → Document → NodeId → Document
  | 0, d, _ => d
  | depth + 1, d, id =>
    match d.slots[id]? with
    | none => d
    | some slot => slot.node.children.foldl (retireTo depth) (d.kill id)

def retire (d : Document) (id : NodeId) : Document := retireTo d.slots.size d id

/-- Lets the parent of `old` name `new` in its stead. -/
def redirect (d : Document) (parent old new : NodeId) : Document :=
  { d with
    slots := d.slots.modify parent fun slot =>
      { slot with node := { slot.node with content := slot.node.content.redirect old new } } }

/-! ## Replacement -/

/-- Whether a live child may go into a replacement: its parent stays the same, or it has none. -/
def mayAdopt (d : Document) (old : NodeId) (oldChildren : List NodeId) (child : NodeId) :
    Except TreeError Unit :=
  match d.liveSlot child with
  | .error e => .error e
  | .ok slot =>
    if oldChildren.contains child || (slot.parent.isNone && child != d.root) then .ok ()
    else .error (.foreignChild old child)

/-- The first child that may not go into a replacement, if any. -/
def checkChildren (d : Document) (old : NodeId) (oldChildren : List NodeId) :
    List NodeId → Except TreeError Unit
  | [] => .ok ()
  | child :: rest =>
    match d.mayAdopt old oldChildren child with
    | .error e => .error e
    | .ok () => d.checkChildren old oldChildren rest

/-- Replaces the node `old` by a new one and gives its id. -/
def replace (d : Document) (old : NodeId) (new : Node) : Except TreeError (NodeId × Document) :=
  match d.liveSlot old with
  | .error e => .error e
  | .ok slot =>
    match slot.parent with
    | none => .error .rootReplacement
    | some parent =>
      let oldChildren := slot.node.children
      match d.checkChildren old oldChildren new.children with
      | .error e => .error e
      | .ok () =>
        let (id, grown) := d.insert new
        let adopted := new.children.foldl (·.setParent id) grown
        let placed := adopted.setParent parent id
        let dropped := oldChildren.filter (! new.children.contains ·)
        let retired := dropped.foldl retire placed
        .ok (id, (retired.kill old).redirect parent old id)

end Document

end TemplateLint
