import TemplateLint.Proofs.Walks

/-!
# Nodes in order

What a rule on documents reports is said of nodes, of what is above them along the parent links, and
of their order in the document. Main statements: the ancestors that a walk shows are the nodes above
(`Forest.mem_climbs_iff`), and what a walk picks out of its visits is in order
(`Forest.enumerates_filter`).
-/

namespace TemplateLint

/-- The rule finds these offenses in a document, whatever it has noted in others before. -/
def Rule.FindsIn (r : Rule) (d : Document) (c : Context) (found : List Offense) : Prop :=
  match r with
  | .document rule => ∀ notes, ∃ notes', rule.check d c (rule.reset notes) = .ok (found, notes')
  | .directive _ => False

theorem Rule.findsIn_plain (descriptor : Descriptor) (check : Document → List Offense)
    (fix : NodeId → Edit Bool) (d : Document) (c : Context) :
    Rule.FindsIn (.document (.plain descriptor check fix)) d c (check d) :=
  fun notes => ⟨notes, rfl⟩

theorem Rule.FindsIn.unique {r : Rule} {d : Document} {c : Context} {found found' : List Offense}
    (h : r.FindsIn d c found) (h' : r.FindsIn d c found') : found = found' := by
  cases r with
  | document rule =>
    obtain ⟨_, hcheck⟩ := h []
    obtain ⟨_, hcheck'⟩ := h' []
    exact congrArg Prod.fst (Except.ok.inj (hcheck.symm.trans hcheck'))
  | directive rule => exact h.elim

theorem forall₂_picked {α β γ : Type} {xs : List α} {f : α → List β} {g : α → γ}
    {pick : α → Bool} {R : γ → β → Prop} (hpick : ∀ x ∈ xs, pick x = true → ∃ y, f x = [y] ∧
      R (g x) y) (hpass : ∀ x ∈ xs, pick x = false → f x = []) :
    List.Forall₂ R ((xs.filter pick).map g) (xs.flatMap f) := by
  induction xs with
  | nil => exact .nil
  | cons x rest ih =>
    rw [List.forall_mem_cons] at hpick hpass
    have hrest := ih hpick.2 hpass.2
    rw [List.filter_cons, List.flatMap_cons]
    cases hx : pick x with
    | true =>
      obtain ⟨y, hy, hr⟩ := hpick.1 hx
      rw [hy]
      exact .cons hr hrest
    | false =>
      rw [hpass.1 hx]
      exact hrest

namespace Document

/-! ## Names -/

/-- The node is an element whose name is this word, up to the case of letters of ASCII. -/
def IsNamed (d : Document) (word : String) (x : NodeId) : Prop :=
  ∃ name, d.tagName? x = some name ∧ Text.sameLetters name word = true

variable {d : Document} {a p x : NodeId} {v : Visit} {skip : Visit → Bool} {P : NodeId → Prop}
  {above ids : List NodeId}

theorem IsNamed.element {word : String} (h : d.IsNamed word x) :
    ∃ first body last isVoid, d.content? x = some (.element first body last isVoid) := by
  obtain ⟨name, hname, -⟩ := h
  unfold tagName? at hname
  split at hname
  · rename_i hget
    exact ⟨_, _, _, _, content?_of_get? hget⟩
  · cases hname

/-! ## Above -/

/-- The first node is the parent of the second, or above its parent. -/
def IsAbove (d : Document) (a x : NodeId) : Prop :=
  Relation.TransGen (fun c p => d.parent? c = some p) x a

theorem isAbove_iff_of_parent? (hp : d.parent? x = some p) :
    d.IsAbove a x ↔ a = p ∨ d.IsAbove a p := by
  constructor
  · intro h
    obtain ⟨q, hq, hup⟩ := Relation.TransGen.head'_iff.mp h
    obtain rfl := Option.some.inj (hp.symm.trans hq)
    exact Relation.reflTransGen_iff_eq_or_transGen.mp hup
  · rintro (rfl | h)
    · exact .single hp
    · exact .head hp h

theorem not_isAbove_of_parent? (hp : d.parent? x = none) : ¬ d.IsAbove a x := by
  intro h
  obtain ⟨q, hq, -⟩ := Relation.TransGen.head'_iff.mp h
  rw [hp] at hq
  cases hq

/-- These are the nodes with a property, each of them once and in order of the document. -/
structure Enumerates (d : Document) (P : NodeId → Prop) (ids : List NodeId) : Prop where
  mem_iff : ∀ x, x ∈ ids ↔ P x
  nodup : ids.Nodup
  ordered : ids.Pairwise d.Precedes

namespace Forest

variable (hf : d.Forest [d.root])
include hf

theorem isAbove_iff : d.IsAbove a x ↔ d.Below a x ∧ a ≠ x := by
  constructor
  · intro h
    induction h with
    | single hp =>
      have hchild := (hf.child_iff _ _).mpr hp
      refine ⟨.head hchild (.refl d x), ?_⟩
      rintro rfl
      exact hf.grounded.not_below_of_child hchild (.refl d _)
    | tail _ hp ih =>
      have hchild := (hf.child_iff _ _).mpr hp
      refine ⟨.head hchild ih.1, ?_⟩
      rintro rfl
      exact hf.grounded.not_below_of_child hchild ih.1
  · rintro ⟨hb, hne⟩
    induction hb with
    | refl => exact absurd rfl hne
    | @tail b c _ hc ih =>
      rw [isAbove_iff_of_parent? ((hf.child_iff b c).mp hc)]
      by_cases hab : a = b
      · exact Or.inl hab
      · exact Or.inr (ih hab)

theorem mem_climbs_iff (h : d.Climbs x above) : a ∈ above ↔ d.IsAbove a x := by
  induction h with
  | root => simp [not_isAbove_of_parent? hf.parent?_root]
  | step hp _ ih => rw [isAbove_iff_of_parent? hp, List.mem_cons, ih]

theorem exists_visit {c : Content} (hx : d.content? x = some c) : ∃ v, d.IsVisit v ∧ v.id = x := by
  obtain ⟨n, hget, -⟩ := get?_of_content? hx
  have hroot := ((hf.mem_tops d.root).mp List.mem_cons_self).1
  have hmem := (hf.mem_allVisits_iff hroot).mpr (hf.below_of_top_eq (isLive_of_get? hget))
  obtain ⟨v, hv, hid⟩ := List.mem_map.mp hmem
  exact ⟨v, (hf.mem_visits_iff.mp hv).1, hid⟩

theorem mem_visits_iff_above :
    v ∈ d.visits skip ↔ d.IsVisit v ∧ ∀ w, d.IsVisit w → d.IsAbove w.id v.id → skip w = false := by
  rw [hf.mem_visits_iff]
  simp only [hf.isAbove_iff, and_imp]

theorem not_precedes_self : ¬ d.Precedes x x := by
  rintro (⟨-, hne⟩ | ⟨p, a, b, hsub, ha, hb⟩)
  · exact hne rfl
  · have hnodup := (hf.children_nodup p).sublist hsub
    have hsame := hf.eq_of_siblings_above (hsub.subset (by simp)) (hsub.subset (by simp)) ha hb
    simp [hsame] at hnodup

theorem enumerates (hmem : ∀ x, x ∈ ids ↔ P x) (hordered : ids.Pairwise d.Precedes) :
    d.Enumerates P ids := by
  refine ⟨hmem, hordered.imp ?_, hordered⟩
  rintro x _ hprecedes rfl
  exact hf.not_precedes_self hprecedes

theorem ordered_visits (skip : Visit → Bool) :
    ((d.visits skip).map Visit.id).Pairwise d.Precedes := by
  rw [visits_eq]
  exact hf.ordered_visitsTo skip _ _ _

theorem enumerates_filter {pick : Visit → Bool}
    (h : ∀ x, (∃ v ∈ d.visits skip, pick v = true ∧ v.id = x) ↔ P x) :
    d.Enumerates P (((d.visits skip).filter pick).map Visit.id) := by
  apply hf.enumerates
  · intro x
    rw [← h, List.mem_map]
    simp only [List.mem_filter, and_assoc]
  · exact (hf.ordered_visits skip).sublist (List.filter_sublist.map Visit.id)

end Forest

end Document

end TemplateLint
