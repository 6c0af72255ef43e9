import TemplateLint.Proofs.DirectiveNames
import TemplateLint.Proofs.Recasting
import TemplateLint.Proofs.Trees

/-!
# Walks

There are three ways through a document: down the child lists with a stack of the nodes above, along
a stack of nodes that are still to come, and up the parent links. Main statement: in a document that
was parsed and fixed they agree, whatever a walk leaves out (`walks_agree`).
-/

namespace TemplateLint

/-! ## Places of visits -/

namespace Document

/-- The parents above a node up to the root, nearest first. -/
inductive Climbs (d : Document) : NodeId → List NodeId → Prop where
  | root : Climbs d d.root []
  | step {x p : NodeId} {above : List NodeId} (hp : d.parent? x = some p) (h : Climbs d p above) :
      Climbs d x (p :: above)

/-- The visit shows a live node and the parents above it. -/
structure IsVisit (d : Document) (v : Visit) : Prop where
  node : d.get? v.id = some v.node
  climbs : d.Climbs v.id v.ancestors

/-- A walk comes to `x` first: `y` is below `x`, or they are below two children in order. -/
def Precedes (d : Document) (x y : NodeId) : Prop :=
  d.Below x y ∧ x ≠ y ∨ ∃ p a b, [a, b].Sublist (d.children p) ∧ d.Below a x ∧ d.Below b y

variable {d : Document} {skip : Visit → Bool} {depth : Nat} {ancestors above above' : List NodeId}
  {a x : NodeId} {v w : Visit}

theorem below_of_mem_visitsTo (hv : v ∈ d.visitsTo skip depth ancestors a) : d.Below a v.id := by
  induction depth generalizing ancestors a with
  | zero => simp [visitsTo] at hv
  | succ depth ih =>
    cases hget : d.get? a with
    | none => simp [visitsTo_of_none hget] at hv
    | some n =>
      rw [visitsTo_succ hget, List.mem_cons] at hv
      rcases hv with rfl | hv
      · exact .refl d a
      · split at hv
        · cases hv
        · obtain ⟨c, hc, hv⟩ := List.mem_flatMap.mp hv
          rw [Node.children, ← children_of_get? hget] at hc
          exact .head hc (ih hv)

theorem mem_visitsTo_child {rank : NodeId → Nat} (hrank : ∀ p, ∀ c ∈ d.children p, rank c < rank p)
    (hdepth : rank a < depth) (hw : w ∈ d.visitsTo skip depth ancestors a) (hskip : skip w = false)
    {c : NodeId} {n : Node} (hc : c ∈ w.node.children) (hget : d.get? c = some n) :
    ⟨c, n, w.id :: w.ancestors⟩ ∈ d.visitsTo skip depth ancestors a := by
  induction depth generalizing ancestors a with
  | zero => simp [visitsTo] at hw
  | succ depth ih =>
    cases ha : d.get? a with
    | none => simp [visitsTo_of_none ha] at hw
    | some m =>
      have hlower (k : NodeId) (hk : k ∈ m.children) : rank k < depth := by
        have hlt := hrank a k (by rw [children_of_get? ha]; exact hk)
        omega
      rw [visitsTo_succ ha, List.mem_cons] at hw ⊢
      right
      rcases hw with rfl | hw
      · obtain ⟨depth, rfl⟩ : ∃ k, depth = k + 1 := ⟨depth - 1, by have := hlower c hc; omega⟩
        rw [hskip]
        refine List.mem_flatMap.mpr ⟨c, hc, ?_⟩
        rw [visitsTo_succ hget]
        exact List.mem_cons_self
      · split at hw
        · cases hw
        · rename_i hgo
          obtain ⟨k, hk, hw⟩ := List.mem_flatMap.mp hw
          rw [if_neg hgo]
          exact List.mem_flatMap.mpr ⟨k, hk, ih (hlower k hk) hw⟩

namespace Forest

variable (hf : d.Forest [d.root])
include hf

theorem parent?_root : d.parent? d.root = none := ((hf.mem_tops d.root).mp List.mem_cons_self).2

theorem climbs_unique (h : d.Climbs x above) (h' : d.Climbs x above') : above = above' := by
  induction h generalizing above' with
  | root =>
    cases h' with
    | root => rfl
    | step hp _ =>
      rw [hf.parent?_root] at hp
      cases hp
  | step hp _ ih =>
    cases h' with
    | root =>
      rw [hf.parent?_root] at hp
      cases hp
    | step hp' h' =>
      obtain rfl := Option.some.inj (hp.symm.trans hp')
      rw [ih h']

/-- A walk shows the parents above each node, and it did not leave out what is below one of them. -/
theorem visit_of_mem_visitsTo (ha : d.Climbs a ancestors)
    (hv : v ∈ d.visitsTo skip depth ancestors a) :
    d.IsVisit v ∧ ∀ w, d.IsVisit w → d.Below a w.id → d.Below w.id v.id →
      w.id ≠ v.id → skip w = false := by
  induction depth generalizing ancestors a with
  | zero => simp [visitsTo] at hv
  | succ depth ih =>
    cases hget : d.get? a with
    | none => simp [visitsTo_of_none hget] at hv
    | some n =>
      rw [visitsTo_succ hget, List.mem_cons] at hv
      rcases hv with rfl | hv
      · refine ⟨⟨hget, ha⟩, ?_⟩
        intro w _ haw hwa hne
        rcases haw.cases_head with rfl | ⟨c, hc, hcw⟩
        · exact absurd rfl hne
        · exact absurd (hcw.trans hwa) (hf.grounded.not_below_of_child hc)
      · split at hv
        · cases hv
        · rename_i hskip
          obtain ⟨c, hc, hv⟩ := List.mem_flatMap.mp hv
          rw [Node.children, ← children_of_get? hget] at hc
          obtain ⟨hvisit, habove⟩ := ih (.step ((hf.child_iff a c).mp hc) ha) hv
          refine ⟨hvisit, ?_⟩
          intro w hw haw hwv hne
          rcases haw.cases_head with hwa | ⟨k, hk, hkw⟩
          · -- The node itself: the walk went on below it.
            obtain ⟨id, node, climbed⟩ := w
            obtain rfl : a = id := hwa
            obtain rfl : n = node := Option.some.inj (hget.symm.trans hw.node)
            obtain rfl : climbed = ancestors := hf.climbs_unique hw.climbs ha
            simpa using hskip
          · have hkc := hf.eq_of_siblings_above hk hc (hkw.trans hwv) (below_of_mem_visitsTo hv)
            exact habove w hw (hkc ▸ hkw) hwv hne

theorem mem_visits_iff :
    v ∈ d.visits skip ↔ d.IsVisit v ∧ ∀ w, d.IsVisit w → d.Below w.id v.id →
      w.id ≠ v.id → skip w = false := by
  rw [visits_eq]
  obtain ⟨rank, hbound, hrank⟩ := hf.grounded
  have hroot := ((hf.mem_tops d.root).mp List.mem_cons_self).1
  constructor
  · intro hv
    obtain ⟨hvisit, habove⟩ := hf.visit_of_mem_visitsTo .root hv
    refine ⟨hvisit, fun w hw => habove w hw ?_⟩
    exact hf.below_of_top_eq (isLive_of_get? hw.node)
  · -- Down from the root: the walk comes to each parent and goes on there.
    obtain ⟨id, n, ancestors⟩ := v
    rintro ⟨⟨hget, hclimbs⟩, hskip⟩
    simp only at hget hclimbs hskip
    induction hclimbs generalizing n with
    | root =>
      obtain ⟨k, hk⟩ : ∃ k, d.slots.size = k + 1 :=
        ⟨d.slots.size - 1, by have := hbound d.root hroot; omega⟩
      rw [hk, visitsTo_succ hget]
      exact List.mem_cons_self
    | @step x p above hp hclimbs ih =>
      have hx := (hf.child_iff p x).mpr hp
      obtain ⟨m, hm⟩ := isLive_iff.mp (isLive_of_mem_children hx)
      have hparent : ⟨p, m, above⟩ ∈ d.visitsTo skip d.slots.size [] d.root := by
        refine ih m (fun w hw hwp _ => hskip w hw (hwp.tail hx) ?_) hm
        rintro rfl
        exact hf.grounded.not_below_of_child hx hwp
      refine mem_visitsTo_child hrank (hbound _ hroot) hparent ?_
        (by rwa [children_of_get? hm] at hx) hget
      refine hskip _ ⟨hm, hclimbs⟩ (.head hx (.refl d x)) ?_
      rintro rfl
      exact hf.grounded.not_below_of_child hx (.refl d _)

theorem ordered_visitsTo (skip : Visit → Bool) (depth : Nat)
    (ancestors : List NodeId) (a : NodeId) :
    ((d.visitsTo skip depth ancestors a).map Visit.id).Pairwise d.Precedes := by
  induction depth generalizing ancestors a with
  | zero => simp [visitsTo]
  | succ depth ih =>
    cases hget : d.get? a with
    | none => simp [visitsTo_of_none hget]
    | some n =>
      rw [visitsTo_succ hget]
      split
      · simp
      · rw [List.map_cons, List.map_flatMap, List.pairwise_cons, List.pairwise_flatMap]
        have hkids : d.children a = n.children := children_of_get? hget
        have hbelow {c y : NodeId}
            (hy : y ∈ (d.visitsTo skip depth (a :: ancestors) c).map Visit.id) : d.Below c y := by
          obtain ⟨v, hv, rfl⟩ := List.mem_map.mp hy
          exact below_of_mem_visitsTo hv
        refine ⟨?_, fun c _ => ih _ c, ?_⟩
        · intro y hy
          obtain ⟨c, hc, hy⟩ := List.mem_flatMap.mp hy
          rw [← hkids] at hc
          refine Or.inl ⟨.head hc (hbelow hy), ?_⟩
          rintro rfl
          exact hf.grounded.not_below_of_child hc (hbelow hy)
        · rw [List.pairwise_iff_forall_sublist]
          intro b c hbc x hx y hy
          exact Or.inr ⟨a, b, c, hkids ▸ hbc, hbelow hx, hbelow hy⟩

end Forest

theorem isLive_eq (d : Document) (x : NodeId) : d.isLive x = d.slots[x]?.any (·.live) := by
  rw [isLive, get?]
  cases d.slots[x]? with
  | none => rfl
  | some slot => cases hlive : slot.live <;> simp [hlive]

theorem size_eq (d : Document) : d.size = (List.range d.slots.size).countP (d.isLive ·) := by
  have hslots : (List.range d.slots.size).map (d.slots[·]?) = d.slots.toList.map some := by
    apply List.ext_getElem
    · simp
    · intro i hi hi'
      simp at hi
      simp [hi]
  have hlive : (d.isLive ·) = Option.any Slot.live ∘ (d.slots[·]?) := funext d.isLive_eq
  rw [hlive, ← List.countP_map, hslots, List.countP_map]
  rfl

theorem Forest.length_allVisits (hf : d.Forest [d.root]) : d.allVisits.length = d.size := by
  have hroot := ((hf.mem_tops d.root).mp List.mem_cons_self).1
  have hperm : (d.allVisits.map Visit.id).Perm ((List.range d.slots.size).filter (d.isLive ·)) := by
    have hnodup : (d.allVisits.map Visit.id).Nodup := hf.ids_visits_nodup _
    rw [List.perm_ext_iff_of_nodup hnodup (List.nodup_range.filter _)]
    intro x
    rw [hf.mem_allVisits_iff hroot, List.mem_filter, List.mem_range]
    constructor
    · intro hx
      have hlive := hf.isLive_of_below hx hroot
      exact ⟨lt_size_of_isLive hlive, hlive⟩
    · exact fun hx => hf.below_of_top_eq hx.2
  rw [size_eq, List.countP_eq_length_filter, ← hperm.length_eq, List.length_map]

end Document

/-! ## A stack of what is above -/

/-- A walker keeps the nodes it is below on a stack, nearest first, and tells what it has
visited. -/
structure Walker where
  stack : List NodeId := []
  seen : List Visit := []

namespace Walker

def see (w : Walker) (v : Visit) : Walker := { w with seen := w.seen ++ [v] }

def push (w : Walker) (id : NodeId) : Walker := { w with stack := id :: w.stack }

def pop (w : Walker) : Walker := { w with stack := w.stack.tail }

/-- The walker visits a node and, unless `skip` holds of the visit, walks its children with the node
on its stack. -/
def walkTo (d : Document) (skip : Visit → Bool) : (depth : Nat) → Walker → NodeId → Walker
  | 0, w, _ => w
  | depth + 1, w, id =>
    match d.get? id with
    | none => w
    | some node =>
      let visit := ⟨id, node, w.stack⟩
      if skip visit then w.see visit
      else (node.children.foldl (walkTo d skip depth) ((w.see visit).push id)).pop

def walk (d : Document) (skip : Visit → Bool) : Walker := walkTo d skip d.slots.size {} d.root

theorem walkTo_eq (d : Document) (skip : Visit → Bool) (depth : Nat) (w : Walker) (id : NodeId) :
    walkTo d skip depth w id = ⟨w.stack, w.seen ++ d.visitsTo skip depth w.stack id⟩ := by
  induction depth generalizing w id with
  | zero => simp [walkTo, Document.visitsTo]
  | succ depth ih =>
    have hchildren (ids : List NodeId) (w : Walker) : ids.foldl (walkTo d skip depth) w =
        ⟨w.stack, w.seen ++ ids.flatMap (d.visitsTo skip depth w.stack)⟩ := by
      induction ids generalizing w with
      | nil => simp
      | cons c rest ihr =>
        rw [List.foldl_cons, ihr, ih]
        simp
    cases hget : d.get? id with
    | none => simp [walkTo, Document.visitsTo, hget]
    | some node =>
      simp only [walkTo, hget]
      rw [Document.visitsTo_succ hget]
      split
      · rfl
      · rw [hchildren]
        simp [see, push, pop]

theorem walk_eq (d : Document) (skip : Visit → Bool) : walk d skip = ⟨[], d.visits skip⟩ := by
  rw [walk, walkTo_eq, ← Document.visits_eq]
  rfl

end Walker

/-! ## A stack of what is to come -/

/-- A collector keeps the nodes still to come on a stack, the next on top, and the directives
found. -/
structure Collector where
  stack : List NodeId
  found : List Directive

namespace Collector

/-- The collector takes the top off its stack, reads it and puts its children there. -/
def step (d : Document) (c : Collector) : Collector :=
  match c.stack with
  | [] => c
  | id :: rest =>
    match d.get? id with
    | none => { c with stack := rest }
    | some node => ⟨node.children ++ rest, c.found ++ (Directive.ofNode? id node).toList⟩

variable {d : Document}

theorem steps_visitsTo (hf : d.Forest [d.root]) {rank : NodeId → Nat}
    (hrank : ∀ p, ∀ c ∈ d.children p, rank c < rank p) {depth : Nat} {a : NodeId}
    (hdepth : rank a < depth) (ha : d.isLive a = true) (ancestors rest : List NodeId)
    (found : List Directive) :
    let seen := d.visitsTo (fun _ => false) depth ancestors a
    (step d)^[seen.length] ⟨a :: rest, found⟩ =
      ⟨rest, found ++ seen.filterMap fun v => Directive.ofNode? v.id v.node⟩ := by
  induction depth generalizing a ancestors rest found with
  | zero => omega
  | succ depth ih =>
    obtain ⟨node, hget⟩ := Document.isLive_iff.mp ha
    have hkids : d.children a = node.children := Document.children_of_get? hget
    have hchildren (ids : List NodeId) (hids : ∀ c ∈ ids, c ∈ d.children a)
        (found : List Directive) :
        let seen := ids.flatMap (d.visitsTo (fun _ => false) depth (a :: ancestors))
        (step d)^[seen.length] ⟨ids ++ rest, found⟩ =
          ⟨rest, found ++ seen.filterMap fun v => Directive.ofNode? v.id v.node⟩ := by
      induction ids generalizing found with
      | nil => simp
      | cons c more ihc =>
        rw [List.forall_mem_cons] at hids
        have hlt := hrank a c hids.1
        have hone :=
          ih (a := c) (by omega) (hf.isLive_of_child hids.1) (a :: ancestors) (more ++ rest) found
        simp only at hone ihc ⊢
        rw [List.flatMap_cons, List.length_append, Nat.add_comm, Function.iterate_add_apply,
          List.cons_append, hone, ihc hids.2]
        simp
    have hstep : step d ⟨a :: rest, found⟩ =
        ⟨node.children ++ rest, found ++ (Directive.ofNode? a node).toList⟩ := by
      simp [step, hget]
    simp only [Document.visitsTo_succ hget, Bool.false_eq_true, if_false, List.length_cons]
    rw [Function.iterate_succ_apply, hstep]
    have hall :=
      hchildren node.children (fun c hc => hkids ▸ hc) (found ++ (Directive.ofNode? a node).toList)
    simp only at hall
    rw [hall]
    cases hof : Directive.ofNode? a node <;> simp [hof]

theorem steps_eq (hf : d.Forest [d.root]) :
    (step d)^[d.size] ⟨[d.root], []⟩ = ⟨[], d.directives⟩ := by
  obtain ⟨rank, hbound, hrank⟩ := hf.grounded
  have hroot := ((hf.mem_tops d.root).mp List.mem_cons_self).1
  have hsteps := steps_visitsTo hf hrank (hbound _ hroot) hroot [] [] []
  simp only [← Document.visits_eq, List.nil_append] at hsteps
  rw [← hf.length_allVisits]
  exact hsteps

end Collector

/-! ## Elements above a visit -/

namespace Document.Whole

variable {d : Document}

theorem isSome_tagName? (h : d.Whole) (x : NodeId) :
    (d.tagName? x).isSome = (d.content? x).any Content.isElement := by
  unfold tagName? content?
  cases hget : d.get? x with
  | none => rfl
  | some n =>
    obtain ⟨location, content⟩ := n
    cases content with
    | element first body last isVoid =>
      obtain ⟨c, hc, hopen⟩ := h.opens (content?_of_get? hget)
      obtain ⟨⟨location', content'⟩, hfirst, rfl⟩ := get?_of_content? hc
      cases content' with
      | openTag opening name children closing => simp [hfirst, Content.isElement]
      | _ => cases hopen
    | _ => rfl

theorem enclosingTags_eq (h : d.Whole) (v : Visit) :
    (d.enclosingTags v).map some =
      (v.ancestors.filter fun a => (d.content? a).any Content.isElement).map d.tagName? := by
  rw [enclosingTags]
  induction v.ancestors with
  | nil => rfl
  | cons a rest ih =>
    have hname := h.isSome_tagName? a
    rw [List.filterMap_cons, List.filter_cons, ← hname]
    cases htag : d.tagName? a with
    | none => simpa using ih
    | some name => simpa [htag] using ih

end Document.Whole

/-- A walk visits each node that is below none it skips once, in order, with its parents on the
stack. -/
theorem walks_agree {source : String} {keep : Bool} {d e : Document}
    (h : Document.parse source keep = .ok d) (he : d.FixedTo e) (skip : Visit → Bool) :
    Walker.walk e skip = ⟨[], e.visits skip⟩ ∧
      (∀ v, v ∈ e.visits skip ↔
        e.IsVisit v ∧ ∀ w, e.IsVisit w → e.Below w.id v.id → w.id ≠ v.id → skip w = false) ∧
      ((e.visits skip).map Visit.id).Nodup ∧ ((e.visits skip).map Visit.id).Pairwise e.Precedes ∧
      (∀ v, (e.enclosingTags v).map some =
        (v.ancestors.filter fun a => (e.content? a).any Content.isElement).map e.tagName?) ∧
      e.allVisits.length = e.size ∧
      (Collector.step e)^[e.size] ⟨[e.root], []⟩ = ⟨[], e.directives⟩ ∧
      e.directives = e.allVisits.filterMap fun v =>
        v.node.content.commentText?.bind (Directive.ofComment? v.id v.node.location) := by
  have hwhole := whole_of_fixed h he
  have hf := hwhole.forest
  refine ⟨Walker.walk_eq e skip, fun v => hf.mem_visits_iff, hf.ids_visits_nodup skip, ?_,
    hwhole.enclosingTags_eq, hf.length_allVisits, Collector.steps_eq hf, ?_⟩
  · rw [Document.visits_eq]
    exact hf.ordered_visitsTo skip _ _ _
  · simp only [Document.directives, Directive.ofNode?_eq]

/-- A tag gets a small name, and then one of its attributes loses its value. -/
theorem walks_agree_after_two_fixes : ∃ d e₁ e,
    Document.parse "<P Checked=x><!--herb:disable a--><b><%#herb:disable%></P>" true = .ok d ∧
      (Rules.TagName.fix 4).run d = .ok true e₁ ∧
      (Rules.BooleanAttribute.fix 3).run e₁ = .ok true e ∧
      Walker.walk e (·.node.content.isOpenTag) = ⟨[], e.visits (·.node.content.isOpenTag)⟩ ∧
      ((e.visits (·.node.content.isOpenTag)).map Visit.id).Pairwise e.Precedes ∧ e.size = 10 ∧
      e.allVisits.length = e.size ∧
      e.directives.length = 2 ∧
      (Collector.step e)^[e.size] ⟨[e.root], []⟩ = ⟨[], e.directives⟩ := by
  have hok : (Document.parse "<P Checked=x><!--herb:disable a--><b><%#herb:disable%></P>"
      true).toOption.any (fun d =>
      (Edit.changed? (Rules.TagName.fix 4) d).any fun e₁ =>
        (Edit.changed? (Rules.BooleanAttribute.fix 3) e₁).any fun e =>
          decide (e.size = 10 ∧ e.directives.length = 2)) = true := by
    decide +kernel
  obtain ⟨d, hd, hfacts⟩ := exists_ok_of_any hok
  obtain ⟨e₁, htag, hfacts⟩ := (Option.any_eq_true _ _).mp hfacts
  obtain ⟨e, hattr, hfacts⟩ := (Option.any_eq_true _ _).mp hfacts
  rw [Edit.changed?_eq_some_iff] at htag hattr
  obtain ⟨hsize, hdirectives⟩ := of_decide_eq_true hfacts
  have htagName : Rules.tagName ∈ Rules.Preset.recommended.rules := by
    simp [Rules.Preset.rules, Rules.documentRules]
  have hboolean : Rules.booleanAttribute ∈ Rules.Preset.recommended.rules := by
    simp [Rules.Preset.rules, Rules.documentRules]
  obtain ⟨hwalk, -, -, horder, -, hlength, hcollect, -⟩ :=
    walks_agree hd (.next (.next .start htagName [] htag) hboolean [] hattr)
      (·.node.content.isOpenTag)
  exact ⟨d, e₁, e, hd, htag, hattr, hwalk, horder, hsize, hlength, hdirectives, hcollect⟩

end TemplateLint
