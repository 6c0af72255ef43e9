import Mathlib.Data.List.Basic
import TemplateLint.Document.Print

/-!
# Items

A node is a row of items: its own tokens and its children, in order of the text. The text of a node,
its children and what a redirected child changes all read off that row, whatever kind of node it is.
-/

namespace TemplateLint

inductive Item where
  | token (token : Token)
  | child (id : NodeId)
  deriving DecidableEq, Repr

namespace Item

def text (node : NodeId → List Char) : Item → List Char
  | token t => t.chars
  | child id => node id

def tokens (node : NodeId → List Token) : Item → List Token
  | token t => [t]
  | child id => node id

def child? : Item → Option NodeId
  | token _ => none
  | child id => some id

theorem mem_filterMap_child? (items : List Item) (id : NodeId) :
    id ∈ items.filterMap child? ↔ child id ∈ items := by
  rw [List.mem_filterMap]
  constructor
  · rintro ⟨item, hm, hc⟩
    cases item with
    | token t => simp [child?] at hc
    | child other =>
      obtain rfl : other = id := by simpa [child?] using hc
      exact hm
  · intro h
    exact ⟨_, h, rfl⟩

theorem text_tokens (node : NodeId → List Token) (item : Item) :
    (item.tokens node).flatMap Token.chars = item.text fun id => (node id).flatMap Token.chars := by
  cases item <;> simp [tokens, text]

theorem filterMap_map_child (ids : List NodeId) : (ids.map child).filterMap child? = ids := by
  rw [List.filterMap_map]
  exact List.filterMap_some

theorem filterMap_map_token (tokens : List Token) : (tokens.map token).filterMap child? = [] := by
  rw [List.filterMap_eq_nil_iff]
  simp [child?]

end Item

namespace Content

/-- The tokens and the children of a node in order of the text. -/
def items : Content → List Item
  | document children => children.map .child
  | element first body last _ => (first :: body ++ last.toList).map .child
  | openTag opening name children closing =>
    [opening, name].map .token ++ children.map .child ++ [closing].map .token
  | closeTag opening name trailing closing =>
    (opening :: name :: trailing.toList ++ [closing]).map .token
  | attr name equals value => (name :: equals.toList).map .token ++ value.toList.map .child
  | attrValue openQuote children closeQuote =>
    openQuote.toList.map .token ++ children.map .child ++ closeQuote.toList.map .token
  | literal content => [content].map .token
  | text content => [content].map .token
  | whitespace content => [content].map .token
  | erb opening content closing => [opening, content, closing].map .token
  | comment opening content closing => [opening, content, closing].map .token
  | doctype opening content closing => [opening, content, closing].map .token

theorem render_eq_items (node : NodeId → List Char) (c : Content) :
    c.render node = c.items.flatMap (Item.text node) := by
  have htokens (l : List Token) : (l.map Item.token).flatMap (Item.text node) =
      l.flatMap Token.chars := by
    rw [List.flatMap_map]; rfl
  have hnodes (l : List NodeId) : (l.map Item.child).flatMap (Item.text node) = l.flatMap node := by
    rw [List.flatMap_map]; rfl
  cases c <;> simp [render, items, htokens, hnodes, Item.text]

theorem children_eq_items (c : Content) : c.children = c.items.filterMap Item.child? := by
  cases c <;> simp only [children, items, List.filterMap_append, Item.filterMap_map_child,
    Item.filterMap_map_token, List.append_nil, List.nil_append]

theorem mem_children_iff (c : Content) (id : NodeId) : id ∈ c.children ↔ .child id ∈ c.items := by
  rw [children_eq_items, Item.mem_filterMap_child?]

theorem render_congr {f g : NodeId → List Char} {c : Content} (h : ∀ id ∈ c.children, f id = g id) :
    c.render f = c.render g := by
  rw [render_eq_items, render_eq_items]
  apply List.flatMap_congr
  intro item hm
  cases item with
  | token t => rfl
  | child id => exact h id ((mem_children_iff c id).mpr hm)

end Content

/-! ## Redirected children -/

theorem replaceFirst_eq_append {old : NodeId} (new : NodeId) {ids : List NodeId} (h : old ∈ ids) :
    ∃ front back, ids = front ++ old :: back ∧ replaceFirst old new ids = front ++ new :: back := by
  induction ids with
  | nil => simp at h
  | cons id rest ih =>
    rw [replaceFirst]
    split
    · rename_i he
      subst he
      exact ⟨[], rest, rfl, rfl⟩
    · rename_i hne
      obtain ⟨front, back, hrest, hnew⟩ := ih (by simpa [Ne.symm hne] using h)
      exact ⟨id :: front, back, by simp [hrest], by simp [hnew]⟩

theorem Content.items_redirect {old : NodeId} (new : NodeId) {c : Content} (h : old ∈ c.children) :
    ∃ front back, c.items = front ++ .child old :: back ∧
      (c.redirect old new).items = front ++ .child new :: back := by
  have hlist (before after : List Item) (ids : List NodeId) (hm : old ∈ ids) :
      ∃ front back, before ++ ids.map .child ++ after = front ++ .child old :: back ∧
        before ++ (replaceFirst old new ids).map .child ++ after = front ++ .child new :: back := by
    obtain ⟨front, back, hids, hnew⟩ := replaceFirst_eq_append new hm
    exact ⟨before ++ front.map .child, back.map .child ++ after, by simp [hids], by simp [hnew]⟩
  cases c with
  | document children => simpa [items, redirect] using hlist [] [] children h
  | element first body last isVoid =>
    rw [redirect]
    split
    · rename_i he
      subst he
      exact ⟨[], body.map .child ++ last.toList.map .child, by simp [items], by simp [items]⟩
    · rename_i hfirst
      split
      · rename_i hbody
        simpa [items] using hlist [.child first] (last.toList.map .child) body
          (by simpa using hbody)
      · rename_i hbody
        have hlast : last = some old := by
          have hor : old = first ∨ old ∈ body ∨ last = some old := by
            simpa [children] using h
          rcases hor with he | hm | hl
          · exact absurd he.symm hfirst
          · exact absurd hm (by simpa using hbody)
          · exact hl
        subst hlast
        exact ⟨.child first :: body.map .child, [], by simp [items], by simp [items]⟩
  | openTag opening name children closing =>
    simpa [items, redirect] using hlist [.token opening, .token name] [.token closing] children h
  | attr name equals value =>
    obtain rfl : value = some old := by simpa [children] using h
    exact ⟨.token name :: equals.toList.map .token, [], by simp [items], by simp [items, redirect]⟩
  | attrValue openQuote children closeQuote =>
    exact hlist (openQuote.toList.map .token) (closeQuote.toList.map .token) children h
  | _ => simp [children] at h

theorem Content.children_redirect {old : NodeId} (new : NodeId) {c : Content}
    (h : old ∈ c.children) :
    ∃ front back, c.children = front ++ old :: back ∧
      (c.redirect old new).children = front ++ new :: back := by
  obtain ⟨front, back, hitems, hitems'⟩ := items_redirect new h
  refine ⟨front.filterMap Item.child?, back.filterMap Item.child?, ?_, ?_⟩
  · rw [children_eq_items, hitems, List.filterMap_append]
    rfl
  · rw [children_eq_items, hitems', List.filterMap_append]
    rfl

/-! ## Tokens -/

namespace Document

/-- The tokens of a node in the order they are printed, down to `depth` levels below it. -/
def tokensTo (d : Document) : (depth : Nat) → NodeId → List Token
  | 0, _ => []
  | depth + 1, id =>
    match d.get? id with
    | some node => node.content.items.flatMap (Item.tokens (d.tokensTo depth))
    | none => []

def tokens (d : Document) (id : NodeId) : List Token := d.tokensTo d.slots.size id

theorem textTo_eq_tokensTo (d : Document) (depth : Nat) (id : NodeId) :
    d.textTo depth id = (d.tokensTo depth id).flatMap Token.chars := by
  induction depth generalizing id with
  | zero => rfl
  | succ depth ih =>
    cases hget : d.get? id with
    | none => simp [textTo, tokensTo, hget]
    | some node =>
      simp only [textTo, tokensTo, hget]
      rw [Content.render_eq_items, List.flatMap_assoc, funext ih]
      apply List.flatMap_congr
      intro item _
      exact (Item.text_tokens _ item).symm

theorem text_eq_tokens (d : Document) (id : NodeId) :
    d.text id = (d.tokens id).flatMap Token.chars := by
  rw [text_eq, tokens, textTo_eq_tokensTo]

end Document

end TemplateLint
