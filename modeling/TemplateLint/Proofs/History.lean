import TemplateLint.Proofs.Replace
import TemplateLint.Proofs.RoundTrip
import TemplateLint.Rule

/-!
# Edit histories

A parsed document changes call by call. Inserted nodes wait for a parent until a replacement adopts
them. Main statement: after every history the document is one tree below its root, with the nodes
that wait beside it (`edit_history`).
-/

namespace TemplateLint

/-! ## Calls -/

inductive Change where
  | insert (node : Node)
  | replace (old : NodeId) (new : Node)
  deriving DecidableEq, Repr

namespace Change

def perform : Change → Edit NodeId
  | insert node => modifyGet (·.insert node)
  | replace old new => Edit.replace old new

/-- A node is inserted without children, and a replacement names no child twice. -/
def Allowed : Change → Prop
  | insert node => node.children = []
  | replace _ new => new.children.Nodup

instance : DecidablePred Allowed
  | insert node => inferInstanceAs (Decidable (node.children = []))
  | replace _ new => inferInstanceAs (Decidable new.children.Nodup)

/-- The nodes that wait for a parent once the call has given `id`. -/
def waiting (id : NodeId) (before : List NodeId) : Change → List NodeId
  | insert _ => before ++ [id]
  | replace _ new => before.filter (· ∉ new.children)

variable {d d' : Document} {old id : NodeId} {new : Node}

theorem run_replace (d : Document) (old : NodeId) (new : Node) :
    (replace old new).perform.run d =
      match d.replace old new with
      | .ok (id, d') => .ok id d'
      | .error e => .error (.tree e) d := by
  change EStateM.bind (Edit.ofExcept (d.replace old new)) _ d = _
  cases d.replace old new with
  | error e => rfl
  | ok r => rfl

theorem run_replace_ok :
    (replace old new).perform.run d = .ok id d' ↔ d.replace old new = .ok (id, d') := by
  rw [run_replace]
  cases d.replace old new with
  | error e => simp
  | ok r => simp [Prod.ext_iff]

theorem eq_of_run_error {c : Change} {e : FixFailure} (h : c.perform.run d = .error e d') :
    d' = d ∧ ∃ t, e = .tree t := by
  cases c with
  | insert node => cases h
  | replace old new =>
    rw [run_replace] at h
    cases hr : d.replace old new with
    | error t =>
      simp only [hr, EStateM.Result.error.injEq] at h
      exact ⟨h.2.symm, t, h.1.symm⟩
    | ok r => simp [hr] at h

end Change

/-! ## Revisions -/

/-- A document with its inserted nodes that nothing has adopted yet. -/
structure Revision where
  document : Document
  waiting : List NodeId := []

namespace Revision

def step (r : Revision) (c : Change) : Revision :=
  match c.perform.run r.document with
  | .ok id document => ⟨document, c.waiting id r.waiting⟩
  | .error _ document => ⟨document, r.waiting⟩

def run (r : Revision) (changes : List Change) : Revision := changes.foldl step r

/-- A history stays good just when its calls fit, if a call that does not fit spoils it. -/
theorem forall_run_iff {Inv Good : Revision → Prop} {Fits : Change → Revision → Prop}
    {changes : List Change} (hgood : ∀ r, Inv r → Good r)
    (hstep : ∀ r, ∀ c ∈ changes, Inv r → Fits c r → Inv (r.step c))
    (hfits : ∀ r, ∀ c ∈ changes, Inv r → Good (r.step c) → Fits c r) {r : Revision} (h : Inv r) :
    (∀ n, Good (r.run (changes.take n))) ↔
      ∀ n (hn : n < changes.length), Fits changes[n] (r.run (changes.take n)) := by
  induction changes generalizing r with
  | nil => simp [run, hgood r h]
  | cons c rest ih =>
    have hrest {r : Revision} := @ih (fun r c hc => hstep r c (List.mem_cons_of_mem _ hc))
      (fun r c hc => hfits r c (List.mem_cons_of_mem _ hc)) r
    constructor
    · intro hall
      have hfirst := hfits r c List.mem_cons_self h (hall 1)
      intro n hn
      cases n with
      | zero => exact hfirst
      | succ n =>
        have hlater := (hrest (hstep r c List.mem_cons_self h hfirst)).mp fun n => hall (n + 1)
        exact hlater n (Nat.lt_of_succ_lt_succ hn)
    · intro hall n
      cases n with
      | zero => exact hgood r h
      | succ n =>
        have hnext := hstep r c List.mem_cons_self h (hall 0 (Nat.succ_pos _))
        exact (hrest hnext).mpr (fun n hn => hall (n + 1) (Nat.succ_lt_succ hn)) n

/-- The nodes hang below the root or wait, and those that wait have no children. -/
structure Sound (r : Revision) (root : NodeId) : Prop where
  root_eq : r.document.root = root
  forest : r.document.Forest (root :: r.waiting)
  leaf : ∀ x ∈ r.waiting, r.document.children x = []

variable {r : Revision} {root old id : NodeId} {node new : Node} {d' : Document}

theorem Sound.insert (h : r.Sound root) (hnode : node.children = []) :
    Sound ⟨(r.document.insert node).2, r.waiting ++ [r.document.slots.size]⟩ root := by
  have hgrows := Document.grows_insert r.document hnode
  have hf : r.document.Forest ((root :: r.waiting) ++ [] ++ []) := by
    rw [List.append_nil, List.append_nil]
    exact h.forest
  have hgrown := hf.grow hgrows hnode
  rw [List.append_nil, List.cons_append] at hgrown
  refine ⟨h.root_eq, hgrown, ?_⟩
  intro x hx
  rcases List.mem_append.mp hx with hx | hx
  · have hlive := ((h.forest.mem_tops x).mp (List.mem_cons_of_mem _ hx)).1
    rw [hgrows.children_old (Document.ne_size_of_isLive hlive)]
    exact h.leaf x hx
  · rw [List.mem_singleton.mp hx, Document.children_of_get? hgrows.get?_new]
    exact hnode

theorem Sound.root_not_adopted (h : r.Sound root) {parent : NodeId}
    (hrep : r.document.Replaced d' old new parent) : root ∉ new.children := by
  intro hc
  obtain ⟨-, hkid | ⟨-, hne⟩⟩ := hrep.adopts root hc
  · exact h.forest.not_child_of_top List.mem_cons_self hkid
  · exact hne h.root_eq.symm

theorem Sound.leaf_of_adopted (h : r.Sound root) {parent c : NodeId}
    (hrep : r.document.Replaced d' old new parent) (hc : c ∈ new.children)
    (hnone : r.document.parent? c = none) : r.document.children c = [] := by
  have htop := (h.forest.mem_tops c).mpr ⟨(hrep.adopts c hc).1, hnone⟩
  rcases List.mem_cons.mp htop with rfl | hwait
  · exact absurd hc (h.root_not_adopted hrep)
  · exact h.leaf c hwait

theorem Sound.replaced (h : r.Sound root) (hnodup : new.children.Nodup) {parent : NodeId}
    (hrep : r.document.Replaced d' old new parent) :
    Sound ⟨d', r.waiting.filter (· ∉ new.children)⟩ root := by
  have hf := h.forest.replace hrep hnodup fun _ => h.leaf_of_adopted hrep
  rw [List.filter_cons_of_pos (by simpa using h.root_not_adopted hrep)] at hf
  refine ⟨hrep.root.trans h.root_eq, hf, ?_⟩
  intro x hx
  have hwait := (List.mem_filter.mp hx).1
  have htop : x ∈ root :: r.waiting := List.mem_cons_of_mem _ hwait
  have hne := Document.ne_size_of_isLive ((h.forest.mem_tops x).mp htop).1
  have hpar : x ≠ parent := by
    rintro rfl
    have hold := hrep.old_mem h.forest
    rw [h.leaf x hwait] at hold
    simp at hold
  rw [hrep.children_kept hne (hrep.not_gone_top h.forest htop) hpar]
  exact h.leaf x hwait

theorem Sound.replace (h : r.Sound root) (hnodup : new.children.Nodup)
    (hrep : r.document.replace old new = .ok (id, d')) :
    Sound ⟨d', r.waiting.filter (· ∉ new.children)⟩ root := by
  obtain ⟨-, parent, hrep⟩ := Document.replaced_of_replace h.forest hrep
  exact h.replaced hnodup hrep

theorem Sound.step (h : r.Sound root) {c : Change} (hc : c.Allowed) : (r.step c).Sound root := by
  unfold Revision.step
  cases c with
  | insert node => exact h.insert hc
  | replace old new =>
    cases hr : (Change.replace old new).perform.run r.document with
    | ok id d' => exact h.replace hc (Change.run_replace_ok.mp hr)
    | error e d' =>
      simp only [(Change.eq_of_run_error hr).1]
      exact h

theorem Sound.run (h : r.Sound root) {changes : List Change} (hc : ∀ c ∈ changes, c.Allowed) :
    (r.run changes).Sound root := by
  induction changes generalizing r with
  | nil => exact h
  | cons c rest ih =>
    rw [List.forall_mem_cons] at hc
    exact ih (h.step hc.1) hc.2

theorem Sound.below_root (h : r.Sound root) {x : NodeId} (hx : r.document.isLive x = true)
    (hwait : x ∉ r.waiting) : r.document.Below root x := by
  obtain ⟨t, ht, hb⟩ := h.forest.exists_top_above hx
  rcases List.mem_cons.mp ht with rfl | ht
  · exact hb
  · rcases hb.cases_head with rfl | ⟨c, hc, -⟩
    · exact absurd ht hwait
    · rw [h.leaf t ht] at hc
      simp at hc

theorem Sound.replaceable_iff (h : r.Sound root) :
    (∃ id d', (Change.replace old new).perform.run r.document = .ok id d') ↔
      r.document.isLive old = true ∧ old ≠ root ∧ old ∉ r.waiting ∧
        ∀ c ∈ new.children, c ∈ r.document.children old ∨ c ∈ r.waiting := by
  have hheld : (∃ parent, r.document.parent? old = some parent) ↔
      r.document.isLive old = true ∧ old ≠ root ∧ old ∉ r.waiting := by
    rw [← not_or, ← List.mem_cons, h.forest.mem_tops]
    cases hp : r.document.parent? old with
    | none => simp
    | some parent => simp [Document.isLive_of_parent? hp]
  have hadopt (c : NodeId) : r.document.Adoptable old c ↔
      c ∈ r.document.children old ∨ c ∈ r.waiting := by
    have htop := h.forest.mem_tops c
    have hnodup := (List.nodup_cons.mp h.forest.tops_nodup).1
    have hlive (hc : c ∈ r.document.children old) := h.forest.isLive_of_child hc
    rw [List.mem_cons] at htop
    rw [Document.Adoptable, h.root_eq]
    grind
  have hok : (∃ id d', (Change.replace old new).perform.run r.document = .ok id d') ↔
      ∃ p, r.document.replace old new = .ok p := by
    simp only [Change.run_replace_ok, Prod.exists]
  simp only [hok, Document.replace_isOk_iff, hheld, hadopt, and_assoc]

end Revision

/-! ## Retired ids -/

/-- Slots are not given up, and what is not live in `d` is not live in `d'` either. -/
structure Document.StaysRetired (d d' : Document) : Prop where
  size_le : d.slots.size ≤ d'.slots.size
  dead : ∀ x < d.slots.size, d.isLive x = false → d'.isLive x = false

namespace Document.StaysRetired

variable {d d₁ d₂ : Document}

theorem refl (d : Document) : d.StaysRetired d := ⟨Nat.le_refl _, fun _ _ hx => hx⟩

theorem trans (h : d.StaysRetired d₁) (h' : d₁.StaysRetired d₂) : d.StaysRetired d₂ :=
  ⟨Nat.le_trans h.size_le h'.size_le, fun x hx hdead =>
    h'.dead x (Nat.lt_of_lt_of_le hx h.size_le) (h.dead x hx hdead)⟩

end Document.StaysRetired

namespace Revision

variable {r : Revision} {root : NodeId}

theorem Sound.staysRetired_step (h : r.Sound root) {c : Change} (hc : c.Allowed) :
    r.document.StaysRetired (r.step c).document := by
  unfold Revision.step
  cases c with
  | insert node =>
    have hgrows := Document.grows_insert r.document hc
    refine ⟨?_, ?_⟩
    · change r.document.slots.size ≤ (r.document.insert node).2.slots.size
      rw [hgrows.size]
      omega
    · intro x hx hdead
      exact (hgrows.isLive_old (Nat.ne_of_lt hx)).trans hdead
  | replace old new =>
    cases hr : (Change.replace old new).perform.run r.document with
    | error e d' =>
      simp only [(Change.eq_of_run_error hr).1]
      exact .refl _
    | ok id d' =>
      obtain ⟨-, parent, hrep⟩ :=
        Document.replaced_of_replace h.forest (Change.run_replace_ok.mp hr)
      refine ⟨?_, ?_⟩
      · simp only [hrep.size]
        omega
      · intro x hx hdead
        by_cases hgone : r.document.Gone old new x
        · exact hrep.gone x hgone
        · exact (hrep.isLive_kept (Nat.ne_of_lt hx) hgone).trans hdead

theorem Sound.staysRetired (h : r.Sound root) {changes : List Change}
    (hc : ∀ c ∈ changes, c.Allowed) :
    r.document.StaysRetired (r.run changes).document := by
  induction changes generalizing r with
  | nil => exact .refl _
  | cons c rest ih =>
    rw [List.forall_mem_cons] at hc
    exact (h.staysRetired_step hc.1).trans (ih (h.step hc.1) hc.2)

end Revision

/-! ## The tree after a history -/

/-- Links go both ways, and each node that does not wait is reached from the root on one path. -/
structure Document.Linked (d : Document) (waiting : List NodeId) : Prop where
  root_live : d.isLive d.root = true
  child : ∀ p, ∀ c ∈ d.children p, d.isLive c = true ∧ d.parent? c = some p
  parent : ∀ x, d.isLive x = true → x ≠ d.root → x ∉ waiting →
    ∃ p, d.isLive p = true ∧ d.parent? x = some p ∧ (d.children p).count x = 1
  path : ∀ x, d.isLive x = true → x ∉ waiting → ∃! path, d.IsPath d.root x path
  waits : ∀ x ∈ waiting, d.isLive x = true ∧ d.parent? x = none ∧ d.children x = []

theorem Revision.Sound.linked {r : Revision} {root : NodeId} (h : r.Sound root) :
    r.document.Linked r.waiting := by
  have hf := h.forest
  rw [← h.root_eq] at hf
  refine ⟨((hf.mem_tops _).mp List.mem_cons_self).1, ?_, ?_, ?_, ?_⟩
  · intro p c hc
    exact ⟨hf.isLive_of_child hc, (hf.child_iff p c).mp hc⟩
  · intro x hx hroot hwait
    cases hp : r.document.parent? x with
    | none =>
      have htop := (hf.mem_tops x).mpr ⟨hx, hp⟩
      rcases List.mem_cons.mp htop with he | he
      · exact absurd he hroot
      · exact absurd he hwait
    | some p =>
      have hmem := (hf.child_iff p x).mpr hp
      exact ⟨p, Document.isLive_of_mem_children hmem, rfl,
        List.count_eq_one_of_mem (hf.children_nodup p) hmem⟩
  · intro x hx hwait
    have hb := h.below_root hx hwait
    rw [← h.root_eq] at hb
    exact hf.existsUnique_path List.mem_cons_self hb
  · intro x hx
    have htop := (hf.mem_tops x).mp (List.mem_cons_of_mem _ hx)
    exact ⟨htop.1, htop.2, h.leaf x hx⟩

def Document.after (d : Document) (changes : List Change) : Revision := Revision.run ⟨d, []⟩ changes

variable {source : String} {keep : Bool} {d : Document} {changes : List Change}

theorem sound_after (h : Document.parse source keep = .ok d) (hc : ∀ c ∈ changes, c.Allowed) :
    (d.after changes).Sound d.root := by
  have hstart : Revision.Sound ⟨d, []⟩ d.root := ⟨rfl, forest_of_parse h, by simp⟩
  exact hstart.run hc

/-- After every history the links hold, the root stays, retired ids stay retired, and failed calls
change nothing. -/
theorem edit_history (h : Document.parse source keep = .ok d) (hc : ∀ c ∈ changes, c.Allowed) :
    let r := d.after changes
    r.document.root = d.root ∧ r.document.Linked r.waiting ∧
      (∀ x < r.document.slots.size, r.document.isLive x = false → ∀ later : List Change,
        (∀ c ∈ later, c.Allowed) → (d.after (changes ++ later)).document.isLive x = false) ∧
      (∀ (c : Change) e d', c.perform.run r.document = .error e d' →
        d' = r.document ∧ ∃ t, e = .tree t) ∧
      ∀ old new, (∃ id d', (Change.replace old new).perform.run r.document = .ok id d') ↔
        r.document.isLive old = true ∧ old ≠ d.root ∧ old ∉ r.waiting ∧
          ∀ c ∈ new.children, c ∈ r.document.children old ∨ c ∈ r.waiting := by
  intro r
  have hsound : r.Sound d.root := sound_after h hc
  refine ⟨hsound.root_eq, hsound.linked, ?_, ?_, ?_⟩
  · intro x hx hdead later hlater
    have hstays := hsound.staysRetired hlater
    rw [Document.after, Revision.run, List.foldl_append]
    exact hstays.dead x hx hdead
  · intro c e d' herr
    exact Change.eq_of_run_error herr
  · intro old new
    exact hsound.replaceable_iff

/-- The paragraph of `<p>a</p><br>` gets a new body, and then its old body cannot be replaced. -/
def bodySwap : List Change :=
  let nowhere : Location := ⟨.start, .start⟩
  [.insert ⟨nowhere, .text ⟨"b", nowhere⟩⟩,
    .replace 3 ⟨nowhere, .element 0 [7] (some 2) false⟩,
    .replace 1 ⟨nowhere, .text ⟨"c", nowhere⟩⟩]

/-- The old body is retired for good, and the inserted one has its parent. -/
theorem edit_history_body_swap : ∃ d, Document.parse "<p>a</p><br>" false = .ok d ∧
    (d.after bodySwap).document.parent? 7 = some 8 ∧ (d.after bodySwap).document.Linked [] ∧
      ∀ later : List Change, (∀ c ∈ later, c.Allowed) →
        (d.after (bodySwap ++ later)).document.isLive 1 = false := by
  have hrun : (Document.parse "<p>a</p><br>" false).toOption.any (fun d =>
      let r := d.after bodySwap
      decide (r.document.parent? 7 = some 8 ∧ r.waiting = [] ∧ 1 < r.document.slots.size ∧
        r.document.isLive 1 = false)) = true := by
    decide +kernel
  obtain ⟨d, hd, hfacts⟩ := exists_ok_of_any hrun
  obtain ⟨hparent, hwaiting, hsize, hdead⟩ := of_decide_eq_true hfacts
  obtain ⟨-, hlinked, hretired, -, -⟩ := edit_history hd (show ∀ c ∈ bodySwap, c.Allowed by decide)
  rw [hwaiting] at hlinked
  exact ⟨d, hd, hparent, hlinked, hretired 1 hsize hdead⟩

end TemplateLint
