import Mathlib.Logic.Function.Basic
import TemplateLint.Proofs.Mending
import TemplateLint.Proofs.Holding
import TemplateLint.Proofs.Replace
import TemplateLint.Rules.TagName

/-!
# Tracking nodes through edits

A pass of fixes replaces nodes of a document one after the other. Each node of the first document
stands at some id of the edited one, mended or not, and names its children by the ids where they
stand. Main statement: putting a mended node in place of one keeps track of all nodes
(`Tracks.replace`).
-/

namespace TemplateLint

open Markup

/-! ## Renamed children -/

namespace Content

def mapChildren (f : NodeId → NodeId) : Content → Content
  | document children => document (children.map f)
  | element first body last isVoid => element (f first) (body.map f) (last.map f) isVoid
  | openTag opening name children closing => openTag opening name (children.map f) closing
  | attr name equals value => attr name equals (value.map f)
  | attrValue openQuote children closeQuote => attrValue openQuote (children.map f) closeQuote
  | leaf => leaf

variable {f g : NodeId → NodeId} {c : Content}

@[simp] theorem children_mapChildren (f : NodeId → NodeId) (c : Content) :
    (c.mapChildren f).children = c.children.map f := by
  have hoption (x : Option NodeId) : (x.map f).toList = x.toList.map f := by cases x <;> rfl
  cases c <;> simp [mapChildren, children, hoption]

theorem mapChildren_congr (h : ∀ x ∈ c.children, f x = g x) :
    c.mapChildren f = c.mapChildren g := by
  cases c with
  | element first body last isVoid =>
    simp only [children, List.mem_append, List.mem_cons, Option.mem_toList] at h
    have hbody : body.map f = body.map g := List.map_congr_left fun x hx => h x (Or.inl (Or.inr hx))
    have hlast : last.map f = last.map g := Option.map_congr fun x hx => h x (Or.inr hx)
    simp only [mapChildren, h first (Or.inl (Or.inl rfl)), hbody, hlast]
  | document children => exact congrArg document (List.map_congr_left h)
  | openTag opening name children closing =>
    exact congrArg (openTag opening name · closing) (List.map_congr_left h)
  | attr name equals value =>
    have hvalue : value.map f = value.map g := Option.map_congr fun x hx =>
      h x (by simpa [children] using hx)
    simp only [mapChildren, hvalue]
  | attrValue openQuote children closeQuote =>
    exact congrArg (attrValue openQuote · closeQuote) (List.map_congr_left h)
  | _ => rfl

@[simp] theorem mapChildren_id (c : Content) : c.mapChildren id = c := by
  cases c <;> simp [mapChildren]

theorem render_mapChildren (g : NodeId → NodeId) (c : Content) (f : NodeId → List Char) :
    (c.mapChildren g).render f = c.render (f ∘ g) := by
  have hoption (x : Option NodeId) : (x.map g).toList.flatMap f = x.toList.flatMap (f ∘ g) := by
    cases x <;> rfl
  cases c <;> simp [mapChildren, render, hoption, List.flatMap_map, Function.comp_def]

theorem map_update_of_not_mem {ids : List NodeId} {t : NodeId} (z : NodeId) (h : t ∉ ids) :
    ids.map (Function.update f t z) = ids.map f := by
  apply List.map_congr_left
  intro x hx
  apply Function.update_of_ne
  rintro rfl
  exact h hx

theorem replaceFirst_map {ids : List NodeId} {t : NodeId} (z : NodeId) (hnodup : ids.Nodup)
    (hinj : ∀ x ∈ ids, f x = f t → x = t) :
    replaceFirst (f t) z (ids.map f) = ids.map (Function.update f t z) := by
  induction ids with
  | nil => rfl
  | cons id rest ih =>
    rw [List.nodup_cons] at hnodup
    rw [List.map_cons, List.map_cons, replaceFirst]
    by_cases he : f id = f t
    · obtain rfl := hinj id List.mem_cons_self he
      rw [if_pos rfl, Function.update_self, map_update_of_not_mem z hnodup.1]
    · have hne : id ≠ t := by
        rintro rfl
        exact he rfl
      rw [if_neg he, Function.update_of_ne hne, ih hnodup.2 fun x hx =>
        hinj x (List.mem_cons_of_mem _ hx)]

theorem map_redirected {t : NodeId} (z : NodeId) {x? : Option NodeId}
    (hinj : ∀ x ∈ x?, f x = f t → x = t) :
    (x?.map f).map (fun id => if id = f t then z else id) = x?.map (Function.update f t z) := by
  cases x? with
  | none => rfl
  | some x =>
    by_cases he : x = t
    · simp [he]
    · have hne : f x ≠ f t := fun hf => he (hinj x rfl hf)
      simp [hne, Function.update_of_ne he]

theorem redirect_mapChildren_element {first t : NodeId} {body : List NodeId}
    {last : Option NodeId} {isVoid : Bool} (z : NodeId)
    (hnodup : (element first body last isVoid).children.Nodup)
    (hinj : ∀ x ∈ (element first body last isVoid).children, f x = f t → x = t) :
    ((element first body last isVoid).mapChildren f).redirect (f t) z =
      (element first body last isVoid).mapChildren (Function.update f t z) := by
  -- The tags and the body have no child in common, so one of the three is redirected and the others
  -- stay.
  simp only [children, List.mem_append, List.mem_cons, Option.mem_toList] at hinj
  simp only [children, List.cons_append, List.nodup_cons, List.mem_append, Option.mem_toList,
    List.nodup_append] at hnodup
  obtain ⟨hfirst, hbody, -, hlast⟩ := hnodup
  have hlastKept (hne : t ∉ last) : last.map (Function.update f t z) = last.map f := by
    apply Option.map_congr
    intro x hx
    apply Function.update_of_ne
    rintro rfl
    exact hne hx
  rw [mapChildren, mapChildren, redirect]
  split
  · rename_i he
    obtain rfl := hinj first (Or.inl (Or.inl rfl)) he
    rw [map_update_of_not_mem z fun hx => hfirst (Or.inl hx),
      hlastKept fun hx => hfirst (Or.inr hx), Function.update_self]
  · rename_i hne
    have hne' : first ≠ t := by
      rintro rfl
      exact hne rfl
    rw [Function.update_of_ne hne']
    split
    · rename_i hmem
      have ht : t ∈ body := by
        obtain ⟨x, hx, he⟩ := List.mem_map.mp (by simpa using hmem)
        exact hinj x (Or.inl (Or.inr hx)) he ▸ hx
      rw [hlastKept fun hx => hlast t ht t hx rfl, replaceFirst_map z hbody fun x hx =>
        hinj x (Or.inl (Or.inr hx))]
    · rename_i hmem
      have ht : t ∉ body := fun hx => hmem (by simpa using List.mem_map_of_mem hx)
      rw [map_update_of_not_mem z ht, map_redirected z fun x hx => hinj x (Or.inr hx)]

theorem redirect_mapChildren {t : NodeId} (z : NodeId) (hnodup : c.children.Nodup)
    (hinj : ∀ x ∈ c.children, f x = f t → x = t) :
    (c.mapChildren f).redirect (f t) z = c.mapChildren (Function.update f t z) := by
  cases c with
  | document children => exact congrArg document (replaceFirst_map z hnodup hinj)
  | element first body last isVoid => exact redirect_mapChildren_element z hnodup hinj
  | openTag opening name children closing =>
    exact congrArg (openTag opening name · closing) (replaceFirst_map z hnodup hinj)
  | attr name equals value =>
    exact congrArg (attr name equals)
      (map_redirected z fun x hx => hinj x (Option.mem_toList.mpr hx))
  | attrValue openQuote children closeQuote =>
    exact congrArg (attrValue openQuote · closeQuote) (replaceFirst_map z hnodup hinj)
  | _ => rfl

end Content

def Node.mapChildren (f : NodeId → NodeId) (n : Node) : Node :=
  { n with content := n.content.mapChildren f }

@[simp] theorem Node.children_mapChildren (f : NodeId → NodeId) (n : Node) :
    (n.mapChildren f).children = n.children.map f := n.content.children_mapChildren f

theorem Node.mapChildren_congr {f g : NodeId → NodeId} {n : Node}
    (h : ∀ x ∈ n.children, f x = g x) :
    n.mapChildren f = n.mapChildren g := by
  rw [mapChildren, mapChildren, Content.mapChildren_congr h]

/-! ## Mended nodes -/

namespace Document

open Rules.QuotedValue

def quoteFor (d : Document) (children : List NodeId) : String :=
  if (literalText d children).contains '"' &&
    !(literalText d children).contains '\'' then "'" else "\""

/-- The node as the fix for its kind leaves it: with a small name, without a value, in quotes, or
escaped. -/
def mended (d : Document) (n : Node) : Node :=
  match n.content with
  | .openTag opening name children closing =>
    { n with content :=
      .openTag opening { name with text := Text.Case.lower name.text } children closing }
  | .closeTag opening name trailing closing =>
    { n with content :=
      .closeTag opening { name with text := Text.Case.lower name.text } trailing closing }
  | .attr name _ _ => ⟨name.location, .attr name none none⟩
  | .attrValue _ children _ =>
    let quote := d.quoteFor children
    let start := n.location.start
    let stop := n.location.stop
    { n with content :=
      .attrValue (some ⟨quote, ⟨start, start⟩⟩) children (some ⟨quote, ⟨stop, stop⟩⟩) }
  | .literal content =>
    { n with content :=
      .literal { content with text := String.ofList (escapeQuotes content.chars) } }
  | _ => n

/-- The node as it is after the fixes of some nodes. -/
def mendAt (d : Document) (fixed : List NodeId) (id : NodeId) (n : Node) : Node :=
  if id ∈ fixed then d.mended n else n

theorem children_mended (d : Document) (n : Node) :
    (d.mended n).children = n.children ∨
      (∃ name equals value, n.content = .attr name equals value) ∧ (d.mended n).children = [] := by
  obtain ⟨location, content⟩ := n
  cases content with
  | attr name equals value => exact Or.inr ⟨⟨name, equals, value, rfl⟩, rfl⟩
  | _ => exact Or.inl rfl

theorem children_mended_sublist (d : Document) (n : Node) :
    (d.mended n).children.Sublist n.children := by
  rcases d.children_mended n with h | ⟨-, h⟩
  · rw [h]
  · rw [h]
    exact List.nil_sublist _

theorem mendAt_or (d : Document) (fixed : List NodeId) (x : NodeId) (n : Node) :
    d.mendAt fixed x n = d.mended n ∨ d.mendAt fixed x n = n := by
  rw [mendAt]
  exact ite_eq_or_eq _ _ _

variable {d : Document} {fixed : List NodeId} {x : NodeId} {n : Node}

theorem mendAt_of_mended (h : d.mended n = n) : d.mendAt fixed x n = n := by
  rw [mendAt, h, ite_self]

theorem children_mendAt (h : ∀ name equals value, x ∈ fixed → n.content ≠ .attr name equals value) :
    (d.mendAt fixed x n).children = n.children := by
  rw [mendAt]
  split
  · rename_i hmem
    refine (d.children_mended n).resolve_right ?_
    rintro ⟨⟨name, equals, value, hcontent⟩, -⟩
    exact h name equals value hmem hcontent
  · rfl

end Document

/-! ## Tracks -/

/-- `e` came from `d` by putting mended nodes in place of those in `fixed`; `a` stands at `now
a`. -/
structure Tracks (d e : Document) (fixed : List NodeId) (present : NodeId → Prop)
    (now : NodeId → NodeId) : Prop where
  forest : e.Forest [e.root]
  size : d.slots.size ≤ e.slots.size
  root : present d.root ∧ now d.root = e.root
  node : ∀ a, present a → ∃ n, d.get? a = some n ∧
    e.get? (now a) = some ((d.mendAt fixed a n).mapChildren now) ∧
    ∀ c ∈ (d.mendAt fixed a n).children, present c
  injective : ∀ a b, present a → present b → now a = now b → a = b
  kept : ∀ a, a ∉ fixed → now a = a
  alive : ∀ a, a < d.slots.size → e.isLive a = true → present a ∧ a ∉ fixed

namespace Tracks

variable {d e e' : Document} {fixed : List NodeId} {present : NodeId → Prop}
  {now : NodeId → NodeId} {a t z : NodeId} {n : Node}

theorem refl (hf : d.Forest [d.root]) : Tracks d d [] (d.isLive · = true) id := by
  refine ⟨hf, Nat.le_refl _, ⟨((hf.mem_tops d.root).mp (by simp)).1, rfl⟩, ?_, fun _ _ _ _ h => h,
    fun _ _ => rfl, fun a _ ha => ⟨ha, by simp⟩⟩
  intro a ha
  obtain ⟨n, hget⟩ := Document.isLive_iff.mp ha
  refine ⟨n, hget, ?_, ?_⟩
  · simp [Document.mendAt, Node.mapChildren, hget]
  · intro c hc
    rw [Document.mendAt, if_neg (by simp)] at hc
    exact hf.isLive_of_child (p := a) (by rw [Document.children_of_get? hget]; exact hc)

theorem get? (h : Tracks d e fixed present now) (ha : present a) (hn : d.get? a = some n) :
    e.get? (now a) = some ((d.mendAt fixed a n).mapChildren now) ∧
      ∀ c ∈ (d.mendAt fixed a n).children, present c := by
  obtain ⟨n', hn', hnode⟩ := h.node a ha
  rw [hn] at hn'
  cases hn'
  exact hnode

theorem isLive (h : Tracks d e fixed present now) (ha : present a) : e.isLive (now a) = true := by
  obtain ⟨n, -, hget, -⟩ := h.node a ha
  exact Document.isLive_of_get? hget

theorem children (h : Tracks d e fixed present now) (ha : present a) (hn : d.get? a = some n) :
    e.children (now a) = (d.mendAt fixed a n).children.map now := by
  rw [Document.children_of_get? (h.get? ha hn).1]
  exact Node.children_mapChildren now _

/-- What is present after the node at `t` was replaced by `new`. -/
def Remains (e : Document) (present : NodeId → Prop) (now : NodeId → NodeId) (t : NodeId)
    (new : Node) (a : NodeId) :
    Prop :=
  present a ∧ (a = t ∨ ¬ e.Gone (now t) new (now a))

section Step

variable {parent : NodeId}

/-- A mended node in place of the old one: what the step finds and what it keeps. -/
structure Step (d e e' : Document) (fixed : List NodeId) (present : NodeId → Prop)
    (now : NodeId → NodeId) (t parent : NodeId) (n : Node) : Prop where
  tracks : Tracks d e fixed present now
  present : present t
  get? : d.get? t = some n
  fresh : t ∉ fixed
  replaced : e.Replaced e' (now t) ((d.mended n).mapChildren now) parent

variable (h : Step d e e' fixed present now t parent n)
include h

theorem Step.children : e.children (now t) = n.children.map now := by
  rw [h.tracks.children h.present h.get?, Document.mendAt, if_neg h.fresh]

theorem Step.mem_children {c : NodeId} (hc : c ∈ (d.mended n).children) :
    now c ∈ e.children (now t) := by
  rw [h.children]
  exact List.mem_map_of_mem ((d.children_mended_sublist n).subset hc)

theorem Step.present_child {c : NodeId} (hc : c ∈ n.children) : present c := by
  have hpresent := (h.tracks.get? h.present h.get?).2 c
  rw [Document.mendAt, if_neg h.fresh] at hpresent
  exact hpresent hc

theorem Step.ne_child {c : NodeId} (hc : c ∈ (d.mended n).children) : c ≠ t := by
  rintro rfl
  exact h.tracks.forest.grounded.not_below_of_child (h.mem_children hc) (.refl e _)

theorem Step.mem_new {x : NodeId} (hx : x ∈ ((d.mended n).mapChildren now).children) :
    x ∈ e.children (now t) := by
  rw [Node.children_mapChildren] at hx
  obtain ⟨c, hc, rfl⟩ := List.mem_map.mp hx
  exact h.mem_children hc

theorem Step.forest : e'.Forest [e'.root] := by
  have hf := h.tracks.forest
  have hheld (x : NodeId) (hx : x ∈ ((d.mended n).mapChildren now).children) :
      e.parent? x = some (now t) :=
    (hf.child_iff _ x).mp (h.mem_new hx)
  have hnodup : ((d.mended n).mapChildren now).children.Nodup := by
    have hkids := hf.children_nodup (now t)
    rw [h.children] at hkids
    rw [Node.children_mapChildren]
    exact hkids.sublist ((d.children_mended_sublist n).map now)
  have hreplace := hf.replace h.replaced hnodup fun x hx hnone => by
    rw [hheld x hx] at hnone
    simp at hnone
  have hroot : e.root ∉ ((d.mended n).mapChildren now).children := fun hx =>
    hf.not_child_of_top (by simp) (h.mem_new hx)
  rw [List.filter_cons_of_pos (by simpa using hroot), List.filter_nil,
    ← h.replaced.root] at hreplace
  exact hreplace

theorem Step.remains_child {c : NodeId} (hc : present c) (hkid : now c ∈ e.children (now a))
    (ha : ¬ e.Gone (now t) ((d.mended n).mapChildren now) (now a)) :
    Remains e present now t ((d.mended n).mapChildren now) c := by
  refine ⟨hc, ?_⟩
  by_cases he : c = t
  · exact Or.inl he
  have hold : now c ≠ now t := fun hn => he (h.tracks.injective c t hc h.present hn)
  refine Or.inr fun hgone => ?_
  by_cases hnew : now c ∈ ((d.mended n).mapChildren now).children
  · exact h.replaced.not_gone_adopted h.tracks.forest hnew hgone
  · exact ha ((Document.Replaced.gone_child_iff h.tracks.forest hkid hold hnew).mp hgone)

theorem Step.node_self :
    e'.get? e.slots.size = some ((d.mended n).mapChildren (Function.update now t e.slots.size)) ∧
      ∀ c ∈ (d.mended n).children, Remains e present now t ((d.mended n).mapChildren now) c := by
  constructor
  · rw [h.replaced.get?_new]
    apply congrArg some
    apply Node.mapChildren_congr
    intro x hx
    exact (Function.update_of_ne (h.ne_child hx) _ _).symm
  · intro c hc
    refine ⟨h.present_child ((d.children_mended_sublist n).subset hc), Or.inr ?_⟩
    apply h.replaced.not_gone_adopted h.tracks.forest
    rw [Node.children_mapChildren]
    exact List.mem_map_of_mem hc

theorem Step.node_other {m : Node} (hm : d.get? a = some m) (ha : present a) (hne : a ≠ t)
    (hstay : ¬ e.Gone (now t) ((d.mended n).mapChildren now) (now a)) :
    e'.get? (now a) = some ((d.mendAt fixed a m).mapChildren (Function.update now t e.slots.size)) ∧
      ∀ c ∈ (d.mendAt fixed a m).children,
        Remains e present now t ((d.mended n).mapChildren now) c := by
  obtain ⟨hget, hpresent⟩ := h.tracks.get? ha hm
  have hkids := h.tracks.children ha hm
  have hf := h.tracks.forest
  constructor
  · by_cases hp : now a = parent
    · -- The parent names the new node.
      subst hp
      obtain ⟨node, hnode, hnode'⟩ := h.replaced.get?_parent hf
      rw [hget] at hnode
      cases hnode
      have hnodup : (d.mendAt fixed a m).children.Nodup := by
        have hmap := hf.children_nodup (now a)
        rw [hkids] at hmap
        exact hmap.of_map
      rw [hnode']
      apply congrArg some
      rw [Node.mapChildren, Node.mapChildren]
      simp only [Node.mk.injEq, true_and]
      apply Content.redirect_mapChildren _ hnodup
      intro x hx hxt
      exact h.tracks.injective x t (hpresent x hx) h.present hxt
    · rw [h.replaced.get?_kept (Document.ne_size_of_isLive (h.tracks.isLive ha)) hstay hp, hget]
      apply congrArg some
      apply Node.mapChildren_congr
      intro x hx
      refine (Function.update_of_ne ?_ _ _).symm
      rintro rfl
      apply hp
      apply hf.parent_unique _ (h.replaced.old_mem hf)
      rw [hkids]
      exact List.mem_map_of_mem hx
  · intro c hc
    apply h.remains_child (hpresent c hc) _ hstay
    rw [hkids]
    exact List.mem_map_of_mem hc

theorem Step.root : Remains e present now t ((d.mended n).mapChildren now) d.root ∧ d.root ≠ t := by
  have hf := h.tracks.forest
  obtain ⟨hpresent, hroot⟩ := h.tracks.root
  refine ⟨⟨hpresent, Or.inr ?_⟩, ?_⟩
  · rw [hroot]
    exact h.replaced.not_gone_top hf (by simp)
  · rintro he
    have hold := h.replaced.old_mem hf
    rw [← he, hroot] at hold
    exact hf.not_child_of_top (by simp) hold

theorem Step.injective {b : NodeId} (ha : present a) (hb : present b)
    (hab : Function.update now t e.slots.size a = Function.update now t e.slots.size b) :
    a = b := by
  have hfresh (x : NodeId) (hx : present x) : now x ≠ e.slots.size :=
    Document.ne_size_of_isLive (h.tracks.isLive hx)
  by_cases hat : a = t <;> by_cases hbt : b = t
  · rw [hat, hbt]
  · subst hat
    rw [Function.update_self, Function.update_of_ne hbt] at hab
    exact absurd hab.symm (hfresh b hb)
  · subst hbt
    rw [Function.update_self, Function.update_of_ne hat] at hab
    exact absurd hab (hfresh a ha)
  · rw [Function.update_of_ne hat, Function.update_of_ne hbt] at hab
    exact h.tracks.injective a b ha hb hab

theorem Step.alive (hsize : a < d.slots.size) (hlive : e'.isLive a = true) :
    Remains e present now t ((d.mended n).mapChildren now) a ∧ a ∉ t :: fixed := by
  have hne : a ≠ e.slots.size := Nat.ne_of_lt (Nat.lt_of_lt_of_le hsize h.tracks.size)
  have hstay : ¬ e.Gone (now t) ((d.mended n).mapChildren now) a := by
    intro hgone
    rw [h.replaced.gone a hgone] at hlive
    simp at hlive
  rw [h.replaced.isLive_kept hne hstay] at hlive
  obtain ⟨ha, hfixed⟩ := h.tracks.alive a hsize hlive
  have hat : a ≠ t := by
    rintro rfl
    exact hstay (Or.inl (h.tracks.kept a hfixed).symm)
  refine ⟨⟨ha, Or.inr ?_⟩, by simp [hat, hfixed]⟩
  rwa [h.tracks.kept a hfixed]

/-- A replacement by a mended node keeps track of all that remains. -/
theorem Step.tracks' :
    Tracks d e' (t :: fixed) (Remains e present now t ((d.mended n).mapChildren now))
    (Function.update now t e.slots.size) := by
  refine ⟨h.forest, ?_, ⟨h.root.1, ?_⟩, ?_,
    fun a b ha hb => h.injective ha.1 hb.1, ?_, fun a => h.alive⟩
  · have hsize := h.tracks.size
    rw [h.replaced.size]
    omega
  · rw [Function.update_of_ne h.root.2, h.replaced.root]
    exact h.tracks.root.2
  · rintro a ⟨ha, hstay⟩
    by_cases he : a = t
    · subst he
      refine ⟨n, h.get?, ?_⟩
      rw [Function.update_self, Document.mendAt, if_pos (by simp)]
      exact h.node_self
    · obtain ⟨m, hm, -⟩ := h.tracks.node a ha
      have hmend : d.mendAt (t :: fixed) a m = d.mendAt fixed a m := by simp [Document.mendAt, he]
      refine ⟨m, hm, ?_⟩
      rw [Function.update_of_ne he, hmend]
      exact h.node_other hm ha he (hstay.resolve_left he)
  · intro a ha
    rw [List.mem_cons, not_or] at ha
    rw [Function.update_of_ne ha.1]
    exact h.tracks.kept a ha.2

end Step

theorem exists_step (h : Tracks d e fixed present now) (ht : present t)
    (hn : d.get? t = some n) (hfresh : t ∉ fixed) (hroot : t ≠ d.root) :
    ∃ e' parent, e.replace (now t) ((d.mended n).mapChildren now) = .ok (e.slots.size, e') ∧
      Step d e e' fixed present now t parent n := by
  have hf := h.forest
  have hkids : e.children (now t) = n.children.map now := by
    rw [h.children ht hn, Document.mendAt, if_neg hfresh]
  have hparent : ∃ parent, e.parent? (now t) = some parent := by
    cases hp : e.parent? (now t) with
    | some parent => exact ⟨parent, rfl⟩
    | none =>
      have htop := (hf.mem_tops (now t)).mpr ⟨h.isLive ht, hp⟩
      rw [List.mem_singleton, ← h.root.2] at htop
      exact absurd (h.injective t d.root ht h.root.1 htop) hroot
  have hadopts (x : NodeId) (hx : x ∈ ((d.mended n).mapChildren now).children) :
      e.Adoptable (now t) x := by
    rw [Node.children_mapChildren] at hx
    have hkid : x ∈ e.children (now t) := by
      rw [hkids]
      exact ((d.children_mended_sublist n).map now).subset hx
    exact ⟨hf.isLive_of_child hkid, Or.inl hkid⟩
  obtain ⟨⟨id, e'⟩, hreplace⟩ := Document.replace_isOk_iff.mpr ⟨hparent, hadopts⟩
  obtain ⟨rfl, parent, hreplaced⟩ := Document.replaced_of_replace hf hreplace
  exact ⟨e', parent, hreplace, h, ht, hn, hfresh, hreplaced⟩

theorem replace (h : Tracks d e fixed present now) (ht : present t)
    (hn : d.get? t = some n) (hfresh : t ∉ fixed) (hroot : t ≠ d.root)
    (hkids : (d.mended n).children = n.children) :
    ∃ e', e.replace (now t) ((d.mended n).mapChildren now) = .ok (e.slots.size, e') ∧
      Tracks d e' (t :: fixed) present (Function.update now t e.slots.size) := by
  obtain ⟨e', parent, hreplace, hstep⟩ := h.exists_step ht hn hfresh hroot
  refine ⟨e', hreplace, ?_⟩
  have hremains : Remains e present now t ((d.mended n).mapChildren now) = present := by
    funext a
    apply propext
    refine ⟨And.left, fun ha => ⟨ha, ?_⟩⟩
    by_cases he : a = t
    · exact Or.inl he
    · refine Or.inr ?_
      rintro (hold | ⟨x, hx, hdrop, -⟩)
      · exact he (h.injective a t ha ht hold)
      · rw [Node.children_mapChildren, hkids, ← hstep.children] at hdrop
        exact hdrop hx
  rw [← hremains]
  exact hstep.tracks'

end Tracks

end TemplateLint
