import TemplateLint.Proofs.Amended
import TemplateLint.Proofs.Passes

/-!
# What rules report

An offense with a fix names the node that its rule can mend. Main statement: whatever a rule of the
catalog reports, its fix leaves the document amended or as it was (`Rules.amends_of_mem_find`).
-/

namespace TemplateLint

open Markup

/-! ## Visited nodes -/

namespace Document

variable {d : Document} {skip : Visit → Bool} {v : Visit}

theorem visitsTo_of_none {depth : Nat} {ancestors : List NodeId} {id : NodeId}
    (h : d.get? id = none) :
    d.visitsTo skip depth ancestors id = [] := by
  cases depth <;> simp [visitsTo, h]

theorem visitsTo_succ {depth : Nat} {ancestors : List NodeId} {id : NodeId} {n : Node}
    (h : d.get? id = some n) :
    d.visitsTo skip (depth + 1) ancestors id = ⟨id, n, ancestors⟩ ::
      if skip ⟨id, n, ancestors⟩ then []
        else n.children.flatMap (d.visitsTo skip depth (id :: ancestors)) := by
  simp only [visitsTo, h]
  split <;> rfl

theorem visitsTo_eq_of_rank {rank : NodeId → Nat}
    (hrank : ∀ p, ∀ c ∈ d.children p, rank c < rank p) {i j : Nat} {ancestors : List NodeId}
    {x : NodeId} (hi : rank x < i) (hj : rank x < j) :
    d.visitsTo skip i ancestors x = d.visitsTo skip j ancestors x := by
  induction i generalizing j ancestors x with
  | zero => omega
  | succ i ih =>
    obtain ⟨j, rfl⟩ : ∃ k, j = k + 1 := ⟨j - 1, by omega⟩
    cases hget : d.get? x with
    | none => rw [visitsTo_of_none hget, visitsTo_of_none hget]
    | some n =>
      have hkids : n.children.flatMap (d.visitsTo skip i (x :: ancestors)) =
          n.children.flatMap (d.visitsTo skip j (x :: ancestors)) := by
        apply List.flatMap_congr
        intro c hc
        have hlt := hrank x c (by rwa [children_of_get? hget])
        exact ih (by omega) (by omega)
      rw [visitsTo_succ hget, visitsTo_succ hget, hkids]

theorem get?_of_mem_visitsTo {depth : Nat} {ancestors : List NodeId} {id : NodeId}
    (h : v ∈ d.visitsTo skip depth ancestors id) : d.get? v.id = some v.node := by
  induction depth generalizing ancestors id with
  | zero => simp [visitsTo] at h
  | succ depth ih =>
    cases hget : d.get? id with
    | none => simp [visitsTo_of_none hget] at h
    | some n =>
      rw [visitsTo_succ hget] at h
      rcases List.mem_cons.mp h with rfl | h
      · exact hget
      · split at h
        · simp at h
        · obtain ⟨c, -, hc⟩ := List.mem_flatMap.mp h
          exact ih hc

theorem get?_of_mem_visits (h : v ∈ d.visits skip) : d.get? v.id = some v.node := by
  rw [visits_eq] at h
  exact get?_of_mem_visitsTo h

end Document

/-! ## Offenses with fixes -/

/-- The offense is one of the rule and names the node as mendable. -/
structure Offense.Offers (o : Offense) (rule : Descriptor) (id : NodeId) : Prop where
  rule : o.rule = rule.name
  fix : o.fix = some ⟨id, .safe⟩

variable {d : Document} {o : Offense} {t : NodeId}

namespace Rules.TagName

theorem offers_of_mem_checkTag {c : Content} (h : o ∈ checkTag t c) :
    o.Offers descriptor t ∧ (lowerTag? c).isSome = true := by
  cases c with
  | openTag opening name children closing =>
    obtain ⟨lower, hlower, rfl⟩ := List.mem_map.mp h
    rw [Option.mem_toList] at hlower
    exact ⟨⟨rfl, rfl⟩, by simp [lowerTag?, hlower]⟩
  | closeTag opening name trailing closing =>
    obtain ⟨lower, hlower, rfl⟩ := List.mem_map.mp h
    rw [Option.mem_toList] at hlower
    exact ⟨⟨rfl, rfl⟩, by simp [lowerTag?, hlower]⟩
  | _ => simp [checkTag] at h

theorem mem_checkTag_of_own {isOwn : Content → Bool} {x : NodeId} (h : o ∈ checkOwnTag d isOwn x) :
    ∃ n, d.get? x = some n ∧ o ∈ checkTag x n.content := by
  unfold checkOwnTag at h
  split at h
  · rename_i n hget
    split at h
    · exact ⟨n, hget, h⟩
    · simp at h
  · simp at h

theorem offers_of_mem_check (h : o ∈ check d) :
    ∃ id n, d.get? id = some n ∧ o.Offers descriptor id ∧ (lowerTag? n.content).isSome = true := by
  have htag : ∃ id n, d.get? id = some n ∧ o ∈ checkTag id n.content := by
    obtain ⟨v, hv, ho⟩ := List.mem_flatMap.mp h
    have hget := Document.get?_of_mem_visits hv
    unfold checkVisit at ho
    split at ho
    · split at ho
      · rcases List.mem_append.mp ho with ho | ho
        · exact ⟨_, mem_checkTag_of_own ho⟩
        · obtain ⟨x, -, ho⟩ := List.mem_flatMap.mp ho
          exact ⟨x, mem_checkTag_of_own ho⟩
      · simp at ho
    · exact ⟨v.id, v.node, hget, ho⟩
  obtain ⟨id, n, hget, ho⟩ := htag
  exact ⟨id, n, hget, offers_of_mem_checkTag ho⟩

end Rules.TagName

theorem Rules.QuotedValue.offers_of_mem_check (h : o ∈ check d) :
    ∃ id location children closeQuote,
      d.get? id = some ⟨location, .attrValue none children closeQuote⟩ ∧
      o.Offers descriptor id := by
  obtain ⟨⟨id, ⟨location, content⟩, ancestors⟩, hv, ho⟩ := List.mem_flatMap.mp h
  have hget := Document.get?_of_mem_visits hv
  unfold checkVisit at ho
  split at ho
  · rename_i first rest closeQuote hcontent
    rw [List.mem_singleton] at ho
    subst ho
    exact ⟨id, location, _, closeQuote, by rw [hget, ← hcontent], rfl, rfl⟩
  · simp at ho

theorem Rules.BooleanAttribute.offers_of_mem_check (h : o ∈ check d) :
    ∃ id name equals value, d.get? id = some ⟨o.location, .attr name equals (some value)⟩ ∧
      isBoolean name.text = true ∧ o.Offers descriptor id := by
  obtain ⟨⟨id, ⟨location, content⟩, ancestors⟩, hv, ho⟩ := List.mem_flatMap.mp h
  have hget := Document.get?_of_mem_visits hv
  unfold checkVisit at ho
  split at ho
  · rename_i name equals value hcontent
    split at ho
    · rename_i hname
      obtain rfl := List.mem_singleton.mp ho
      obtain rfl : content = .attr name equals (some value) := hcontent
      exact ⟨id, name, equals, value, hget, (Bool.and_eq_true_iff.mp hname).1, rfl, rfl⟩
    · cases ho
  · cases ho

theorem Rules.UniqueId.fix_of_mem_compare {notes new : List Note} (h : o ∈ (compare notes new).1) :
    o.fix = none := by
  induction new generalizing notes with
  | nil => simp [compare] at h
  | cons n rest ih =>
    rw [compare] at h
    split at h
    · rcases List.mem_cons.mp h with rfl | h
      · rfl
      · exact ih h
    · exact ih h

theorem Rules.NestedLink.fix_of_mem_check (h : o ∈ check d) : o.fix = none := by
  obtain ⟨v, -, ho⟩ := List.mem_flatMap.mp h
  unfold checkVisit at ho
  split at ho
  · split at ho
    · obtain ⟨location, -, rfl⟩ := List.mem_map.mp ho
      rfl
    · simp at ho
  · simp at ho

theorem Rules.fix_of_directiveRules {rule : Rule} (h : rule ∈ directiveRules) :
    ∃ descriptor check, rule = .directive (.plain descriptor check) ∧
      ∀ (d : Directive) (c : Context), ∀ o ∈ check d c, o.fix = none := by
  simp only [directiveRules, List.mem_cons, List.not_mem_nil, or_false] at h
  rcases h with rfl | rfl | rfl | rfl | rfl
  · refine ⟨_, _, rfl, fun d c o ho => ?_⟩
    unfold MalformedDirective.check at ho
    split at ho
    · rw [List.mem_singleton.mp ho]
      rfl
    · simp only [List.mem_append, List.mem_map] at ho
      rcases ho with ho | ⟨e, -, rfl⟩
      · split at ho
        · rw [List.mem_singleton.mp ho]
          rfl
        · simp at ho
      · rfl
  · refine ⟨_, _, rfl, fun d c o ho => ?_⟩
    unfold EmptyDirective.check at ho
    split at ho
    · rw [List.mem_singleton.mp ho]
      rfl
    · simp at ho
  · refine ⟨_, _, rfl, fun d c o ho => ?_⟩
    obtain ⟨e, -, rfl⟩ := List.mem_map.mp ho
    rfl
  · refine ⟨_, _, rfl, fun d c o ho => ?_⟩
    obtain ⟨e, -, rfl⟩ := List.mem_map.mp ho
    rfl
  · refine ⟨_, _, rfl, fun d c o ho => ?_⟩
    unfold RedundantName.check at ho
    split at ho
    · obtain ⟨e, -, rfl⟩ := List.mem_map.mp ho
      rfl
    · simp at ho

/-! ## Fixes of amended documents -/

/-- The document came from `d` by fixes of some of its nodes. -/
def Document.Amended (d e : Document) : Prop :=
  ∃ ts present now, d.Targets ts ∧ Tracks d e (d.mendedBy ts) present now

/-- Where the fix changes a document that came from `d` by fixes, the new one came so too. -/
def Amends (fix : NodeId → Edit Bool) (d : Document) (t : NodeId) : Prop :=
  ∀ e e', d.Amended e → (fix t).run e = .ok true e' → d.Amended e'

section Amends

variable {ps : List Piece} {n : Node}

theorem Document.Holds.value_of_content? (h : d.Holds ps) (hf : d.Forest [d.root]) {x : NodeId}
    {openQuote closeQuote : Option Token} {children : List NodeId}
    (hx : d.content? x = some (.attrValue openQuote children closeQuote)) :
    ∃ v, d.HoldsValue x v := by
  obtain ⟨n, hget, -⟩ := Document.get?_of_content? hx
  have hrole := h.sameRole hf (Document.isLive_of_get? hget)
  obtain ⟨_, hroot, -⟩ := h
  obtain ⟨v, hv, -⟩ := hrole.value_of_content? hroot hx
  exact ⟨v, hv⟩

theorem amends_of_present {fix : NodeId → Edit Bool} (hn : d.get? t = some n)
    (hstale : ∀ e : Document, (Edit.node t).run e = .error (.tree (.staleNode t)) e →
      (fix t).run e = .error (.tree (.staleNode t)) e)
    (hfix : ∀ e ts present now, d.Targets ts → Tracks d e (d.mendedBy ts) present now →
      present t → t ∉ d.mendedBy ts → ∀ e', (fix t).run e = .ok true e' → d.Amended e') :
    Amends fix d t := by
  -- A fix does what it does to nodes that are there; a retired one stops it at once.
  rintro e e' ⟨ts, present, now, hts, htracks⟩ hrun
  have hsize : t < d.slots.size := Document.lt_size_of_isLive (Document.isLive_of_get? hn)
  cases hlive : e.isLive t with
  | false =>
    have hdead := Edit.run_node_dead (Nat.lt_of_lt_of_le hsize htracks.size) hlive
    rw [hstale e hdead] at hrun
    cases hrun
  | true =>
    obtain ⟨hpresent, hfresh⟩ := htracks.alive t hsize hlive
    exact hfix e ts present now hts htracks hpresent hfresh e' hrun

theorem Document.Holds.ne_root (h : d.Holds ps) {c : Content} (hc : d.content? t = some c)
    (hdocument : ∀ ids, c ≠ .document ids) : t ≠ d.root := by
  rintro rfl
  obtain ⟨children, hroot, -⟩ := h
  rw [hroot] at hc
  exact hdocument children (Option.some.inj hc).symm

theorem Rules.TagName.amends (h : d.Holds ps) (hn : d.get? t = some n) : Amends fix d t := by
  refine amends_of_present hn (fun e hdead => Edit.run_bind_error hdead _) ?_
  intro e ts present now hts htracks hpresent hfresh e' hrun
  cases hlower : lowerTag? n.content with
  | none =>
    rw [run_fix_small htracks hpresent hfresh hn hlower] at hrun
    simp at hrun
  | some c =>
    have hc := Document.content?_of_get? hn
    have hroot : t ≠ d.root := by
      apply h.ne_root hc
      intro ids hcontent
      simp [hcontent, lowerTag?] at hlower
    obtain ⟨e₁, now₁, hrun₁, htracks₁⟩ := run_fix htracks hpresent hfresh hn hroot hlower
    rw [hrun₁] at hrun
    obtain ⟨-, rfl⟩ := EStateM.Result.ok.inj hrun
    refine ⟨t :: ts, present, now₁, List.forall_mem_cons.mpr ⟨⟨_, hc, ?_⟩, hts⟩, htracks₁⟩
    cases hcontent : n.content <;> simp_all [lowerTag?, Content.IsFixable]

theorem Document.Holds.parts_fresh (h : d.Holds ps) (hf : d.Forest [d.root])
    {ts : List NodeId} (hts : d.Targets ts) {openQuote closeQuote : Option Token}
    {children : List NodeId} (hc : d.content? t = some (.attrValue openQuote children closeQuote))
    (hfresh : t ∉ ts) :
    ∀ l ∈ children, l ∉ d.mendedBy ts := by
  intro l hl hmem
  obtain ⟨v, openQuote', children', closeQuote', hc', -, -, hparts⟩ := h.value_of_content? hf hc
  rw [hc] at hc'
  cases hc'
  obtain ⟨part, -, hpart⟩ := Document.exists_of_mem_forall₂ hparts hl
  exact hfresh ((hts.part_mem_iff hf hc hl hpart).mp hmem).1

theorem Rules.QuotedValue.amends (h : d.Holds ps) (hf : d.Forest [d.root]) {location : Location}
    {closeQuote : Option Token} {children : List NodeId}
    (hn : d.get? t = some ⟨location, .attrValue none children closeQuote⟩) : Amends fix d t := by
  refine amends_of_present hn (fun e hdead => Edit.run_bind_error hdead _) ?_
  intro e ts present now hts htracks hpresent hfresh e' hrun
  have hc := Document.content?_of_get? hn
  have hkids :=
    h.parts_fresh hf hts hc (by rwa [Document.mem_mendedBy_iff ts hc (by simp)] at hfresh)
  obtain ⟨e₁, now₁, hrun₁, htracks₁⟩ :=
    run_fix htracks hpresent hfresh (h.ne_root hc (by simp)) hn hkids
  rw [hrun₁] at hrun
  obtain ⟨-, rfl⟩ := EStateM.Result.ok.inj hrun
  exact ⟨t :: ts, present, now₁, List.forall_mem_cons.mpr ⟨⟨_, hc, trivial⟩, hts⟩, htracks₁⟩

theorem Rules.BooleanAttribute.amends (h : d.Holds ps) {location : Location} {name : Token}
    {equals : Option Token} {value : Option NodeId}
    (hn : d.get? t = some ⟨location, .attr name equals value⟩)
    (hname : isBoolean name.text = true) : Amends fix d t := by
  refine amends_of_present hn (fun e hdead => Edit.run_bind_error hdead _) ?_
  intro e ts present now hts htracks hpresent hfresh e' hrun
  by_cases hbare : equals = none ∧ value = none
  · obtain ⟨rfl, rfl⟩ := hbare
    rw [run_fix_bare htracks hpresent hfresh hn] at hrun
    simp at hrun
  · have hc := Document.content?_of_get? hn
    obtain ⟨e₁, present₁, now₁, hrun₁, htracks₁⟩ :=
      run_fix htracks hpresent hfresh (h.ne_root hc (by simp)) hn hbare
    rw [hrun₁] at hrun
    obtain ⟨-, rfl⟩ := EStateM.Result.ok.inj hrun
    exact ⟨t :: ts, present₁, now₁, List.forall_mem_cons.mpr ⟨⟨_, hc, hname⟩, hts⟩, htracks₁⟩

/-- What a rule of the catalog offers to mend, its fix mends or leaves as it is. -/
theorem Rules.amends_of_mem_find (h : d.Holds ps) (hf : d.Forest [d.root]) {a : ActiveRule}
    (ha : a.rule ∈ Preset.recommended.rules) {directives : List Directive} {c : Context}
    {found : List Offense} {notes : List Note} (hfind : a.find d directives c = .ok (found, notes))
    (ho : o ∈ found) {target : FixTarget} (hfix : o.fix = some target) :
    ∃ r, a.rule = .document r ∧ o.rule = r.descriptor.name ∧
      ∀ notes, Amends (r.fix · notes) d target.node := by
  unfold ActiveRule.find at hfind
  rcases List.mem_append.mp ha with hdirective | hdocument
  · obtain ⟨descriptor, check, hrule, hnone⟩ := fix_of_directiveRules hdirective
    simp only [hrule, DirectiveRule.checkAll_plain, Except.ok.injEq, Prod.mk.injEq] at hfind
    rw [← hfind.1] at ho
    obtain ⟨directive, -, ho⟩ := List.mem_flatMap.mp ho
    simp [hnone _ _ o ho] at hfix
  · simp only [documentRules, List.mem_cons, List.not_mem_nil, or_false] at hdocument
    rcases hdocument with hrule | hrule | hrule | hrule | hrule
    · simp only [hrule, tagName, DocumentRule.plain, Except.ok.injEq, Prod.mk.injEq] at hfind
      rw [← hfind.1] at ho
      obtain ⟨id, n, hn, hoffers, -⟩ := TagName.offers_of_mem_check ho
      obtain rfl := Option.some.inj (hoffers.fix.symm.trans hfix)
      exact ⟨_, hrule, hoffers.rule, fun _ => TagName.amends h hn⟩
    · simp only [hrule, quotedValue, DocumentRule.plain, Except.ok.injEq, Prod.mk.injEq] at hfind
      rw [← hfind.1] at ho
      obtain ⟨id, location, children, closeQuote, hn, hoffers⟩ := QuotedValue.offers_of_mem_check ho
      obtain rfl := Option.some.inj (hoffers.fix.symm.trans hfix)
      exact ⟨_, hrule, hoffers.rule, fun _ => QuotedValue.amends h hf hn⟩
    · simp only [hrule, booleanAttribute, DocumentRule.plain, Except.ok.injEq,
        Prod.mk.injEq] at hfind
      rw [← hfind.1] at ho
      obtain ⟨id, name, equals, value, hn, hname, hoffers⟩ :=
        BooleanAttribute.offers_of_mem_check ho
      obtain rfl := Option.some.inj (hoffers.fix.symm.trans hfix)
      exact ⟨_, hrule, hoffers.rule, fun _ => BooleanAttribute.amends h hn hname⟩
    · simp only [hrule, uniqueId, Except.ok.injEq, UniqueId.check] at hfind
      rw [← show _ = found from congrArg Prod.fst hfind] at ho
      simp [UniqueId.fix_of_mem_compare ho] at hfix
    · simp only [hrule, nestedLink, DocumentRule.plain, Except.ok.injEq, Prod.mk.injEq] at hfind
      rw [← hfind.1] at ho
      simp [NestedLink.fix_of_mem_check ho] at hfix

end Amends

end TemplateLint
