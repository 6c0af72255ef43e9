import TemplateLint.Proofs.Reports
import TemplateLint.Proofs.Suppression

/-!
# Rules by themselves

A linter that is restricted to some of its rules reports of them what it reported before, in the
same order and as severe, and hides as much of it (`lint_restrictTo`). This holds whether the other
rules find something, note something or fail.
-/

namespace TemplateLint

/-! ## Rules that keep to themselves -/

/-- The rule reports under its own name; what it finds hangs on the template and the valid names
alone. -/
structure Rule.Confined (r : Rule) : Prop where
  rule_eq : ∀ {notes d directives c found after},
    (ActiveRule.mk r notes).find d directives c = .ok (found, after) → ∀ o ∈ found, o.rule = r.name
  find_eq : ∀ {c c' : Context} (notes notes' d directives), c'.validNames = c.validNames →
    ((ActiveRule.mk r notes').find d directives c').map (·.1) =
      ((ActiveRule.mk r notes).find d directives c).map (·.1)

namespace Rule

theorem confined_plain {descriptor : Descriptor} {check : Document → List Offense}
    {fix : NodeId → Edit Bool} (h : ∀ d, ∀ o ∈ check d, o.rule = descriptor.name) :
    (Rule.document (.plain descriptor check fix)).Confined := by
  refine ⟨fun hfind => ?_, fun _ _ _ _ _ => rfl⟩
  obtain ⟨rfl, rfl⟩ := Prod.mk.inj (Except.ok.inj hfind)
  exact h _

theorem confined_plain_directive {descriptor : Descriptor}
    {check : Directive → Context → List Offense}
    (hname : ∀ d c, ∀ o ∈ check d c, o.rule = descriptor.name)
    (hcheck : ∀ d c c', c'.validNames = c.validNames → check d c' = check d c) :
    (Rule.directive (.plain descriptor check)).Confined := by
  constructor
  · intro notes d directives c found after hfind o ho
    simp only [ActiveRule.find, DirectiveRule.checkAll_plain, Except.ok.injEq,
      Prod.mk.injEq] at hfind
    rw [← hfind.1] at ho
    obtain ⟨directive, -, ho⟩ := List.mem_flatMap.mp ho
    exact hname _ _ o ho
  · intro c c' notes notes' d directives hvalid
    simp only [ActiveRule.find, DirectiveRule.checkAll_plain, Except.map, Except.ok.injEq]
    exact List.flatMap_congr fun directive _ => hcheck directive c c' hvalid

end Rule

namespace Rules

theorem UniqueId.rule_of_mem_compare {o : Offense} {notes new : List Note}
    (h : o ∈ (compare notes new).1) :
    o.rule = descriptor.name := by
  induction new generalizing notes with
  | nil => simp [compare] at h
  | cons n rest ih =>
    rw [compare] at h
    split at h
    · rcases List.mem_cons.mp h with rfl | h
      · rfl
      · exact ih h
    · exact ih h

theorem NestedLink.rule_of_mem_check {o : Offense} {d : Document} (h : o ∈ check d) :
    o.rule = descriptor.name := by
  obtain ⟨v, -, ho⟩ := List.mem_flatMap.mp h
  unfold checkVisit at ho
  split at ho
  · split at ho
    · obtain ⟨location, -, rfl⟩ := List.mem_map.mp ho
      rfl
    · simp at ho
  · simp at ho

theorem confined_of_mem {p : Preset} {r : Rule} (h : r ∈ p.rules) : r.Confined := by
  have hall := Preset.mem_recommended h
  simp only [Preset.rules, directiveRules, documentRules, List.mem_append,
    List.mem_cons, List.not_mem_nil, or_false] at hall
  rcases hall with (rfl | rfl | rfl | rfl | rfl) | rfl | rfl | rfl | rfl | rfl
  · refine Rule.confined_plain_directive (fun d c o ho => ?_) fun _ _ _ _ => rfl
    unfold MalformedDirective.check at ho
    grind [Descriptor.offense]
  · refine Rule.confined_plain_directive (fun d c o ho => ?_) fun _ _ _ _ => rfl
    unfold EmptyDirective.check at ho
    grind [Descriptor.offense]
  · refine Rule.confined_plain_directive (fun d c o ho => ?_) fun d c c' hvalid => ?_
    · obtain ⟨e, -, rfl⟩ := List.mem_map.mp ho
      rfl
    · have hunknown : UnknownName.isUnknown c' = UnknownName.isUnknown c := by
        funext e
        simp only [UnknownName.isUnknown, Context.isValid, hvalid]
      simp only [UnknownName.check, hunknown, hvalid]
  · refine Rule.confined_plain_directive (fun d c o ho => ?_) fun _ _ _ _ => rfl
    obtain ⟨e, -, rfl⟩ := List.mem_map.mp ho
    rfl
  · refine Rule.confined_plain_directive (fun d c o ho => ?_) fun _ _ _ _ => rfl
    unfold RedundantName.check at ho
    grind [Descriptor.offense]
  · refine Rule.confined_plain fun d o ho => ?_
    obtain ⟨_, _, -, hoffers, -⟩ := TagName.offers_of_mem_check ho
    exact hoffers.rule
  · refine Rule.confined_plain fun d o ho => ?_
    obtain ⟨_, _, _, _, -, hoffers⟩ := QuotedValue.offers_of_mem_check ho
    exact hoffers.rule
  · refine Rule.confined_plain fun d o ho => ?_
    obtain ⟨_, _, _, _, -, -, hoffers⟩ := BooleanAttribute.offers_of_mem_check ho
    exact hoffers.rule
  · refine ⟨fun hfind o ho => ?_, fun _ _ _ _ _ => rfl⟩
    obtain ⟨rfl, -⟩ := Prod.ext_iff.mp (Except.ok.inj hfind)
    exact UniqueId.rule_of_mem_compare ho
  · exact Rule.confined_plain fun d o ho => NestedLink.rule_of_mem_check ho

end Rules

namespace ActiveRule

variable {a a' : ActiveRule} {c c' : Context}

theorem rule_of_mem_run (h : a.rule.Confined) {d : Document}
    {directives : List Directive} {o : Offense} (ho : o ∈ (a.run d directives c).offenses) :
    o.rule = a.rule.name := by
  unfold run at ho
  cases hfind : a.find d directives c with
  | error crash =>
    rw [hfind] at ho
    rw [List.mem_singleton.mp ho]
    rfl
  | ok result =>
    have hrule := h.rule_eq hfind
    simp only [hfind] at ho
    cases hseverity : c.severity? a.rule.name with
    | none =>
      rw [hseverity] at ho
      exact hrule o ho
    | some severity =>
      rw [hseverity] at ho
      obtain ⟨o', ho', rfl⟩ := List.mem_map.mp ho
      exact hrule o' ho'

theorem offenses_run_confined (hrule : a'.rule = a.rule) (h : a.rule.Confined)
    (hvalid : c'.validNames = c.validNames) (hseverities : c'.severities = c.severities)
    (d : Document) (directives : List Directive) :
    (a'.run d directives c').offenses = (a.run d directives c).offenses := by
  have hfind : (a'.find d directives c').map (·.1) = (a.find d directives c).map (·.1) := by
    obtain ⟨rule, notes⟩ := a
    obtain ⟨rule', notes'⟩ := a'
    obtain rfl : rule' = rule := hrule
    exact h.find_eq _ _ _ _ hvalid
  have hseverity (name : String) : c'.severity? name = c.severity? name :=
    congrArg (List.lookup name) hseverities
  unfold run
  simp only [hrule, hseverity]
  cases hf' : a'.find d directives c' <;> cases hf : a.find d directives c <;>
    simp only [hf, hf', Except.map, Except.ok.injEq, Except.error.injEq, reduceCtorEq] at hfind ⊢
  · rw [hfind]
  · rw [hfind]

end ActiveRule

/-! ## Restricted settings -/

namespace Settings

theorem lookup_setEnabled (enabled : Bool) (name other : String)
    (rules : List (String × RuleSetting)) :
    (setEnabled enabled name rules).lookup other =
      if other = name then some { (rules.lookup name).getD {} with enabled := some enabled }
        else rules.lookup other := by
  induction rules with
  | nil => by_cases h : other = name <;> simp [setEnabled, List.lookup_cons, h, beq_false_of_ne]
  | cons rule rest ih =>
    obtain ⟨first, setting⟩ := rule
    unfold setEnabled
    by_cases hfirst : first = name
    · subst hfirst
      by_cases hother : other = first <;> simp [hother, List.lookup_cons, beq_false_of_ne]
    · rw [if_neg hfirst, List.lookup_cons, ih]
      by_cases hother : other = first
      · simp [hother, hfirst]
      · simp [List.lookup_cons, beq_false_of_ne hother, beq_false_of_ne (Ne.symm hfirst)]

theorem severities_setEnabled (enabled : Bool) (name : String)
    (rules : List (String × RuleSetting)) :
    ((setEnabled enabled name rules).filterMap fun (name, setting) =>
      setting.severity.map (name, ·)) =
      rules.filterMap fun (name, setting) => setting.severity.map (name, ·) := by
  induction rules with
  | nil => rfl
  | cons rule rest ih =>
    obtain ⟨first, setting⟩ := rule
    unfold setEnabled
    split
    · rfl
    · simp only [List.filterMap_cons, ih]

theorem mem_names_setEnabled {enabled : Bool} {name other : String}
    {rules : List (String × RuleSetting)} :
    other ∈ (setEnabled enabled name rules).map (·.1) ↔ other = name ∨ other ∈ rules.map (·.1) := by
  induction rules with
  | nil => simp [setEnabled]
  | cons rule rest ih =>
    unfold setEnabled
    split
    · grind
    · rw [List.map_cons, List.mem_cons, ih]
      grind

variable {keep all : List String} {name : String}

theorem isRuleEnabled_restrictTo (s : Settings) (h : name ∈ all) (byDefault : Bool) :
    (s.restrictTo keep all).isRuleEnabled name byDefault = keep.contains name := by
  -- Once a name has been set, the names after it leave it as it is or set it again.
  have hset (rules : List (String × RuleSetting)) :
      (((all.foldl (fun rules name => setEnabled (keep.contains name) name rules)
        rules).lookup name).bind
        RuleSetting.enabled) =
      if name ∈ all then some (keep.contains name)
      else (rules.lookup name).bind RuleSetting.enabled := by
    clear h
    induction all generalizing rules with
    | nil => simp
    | cons first rest ih =>
      rw [List.foldl_cons, ih, lookup_setEnabled]
      by_cases hrest : name ∈ rest
      · simp [hrest]
      · by_cases hfirst : name = first <;> simp [hrest, hfirst]
  rw [isRuleEnabled, restrictTo, hset, if_pos h, Option.getD_some]

theorem severities_restrictTo (s : Settings) :
    ((s.restrictTo keep all).rules.filterMap fun (name, setting) =>
      setting.severity.map (name, ·)) =
      s.rules.filterMap fun (name, setting) => setting.severity.map (name, ·) := by
  rw [restrictTo]
  dsimp only
  generalize s.rules = rules
  induction all generalizing rules with
  | nil => rfl
  | cons first rest ih => rw [List.foldl_cons, ih, severities_setEnabled]

theorem mem_names_restrictTo {s : Settings} :
    name ∈ (s.restrictTo keep all).rules.map (·.1) ↔ name ∈ all ∨ name ∈ s.rules.map (·.1) := by
  rw [restrictTo]
  dsimp only
  generalize s.rules = rules
  induction all generalizing rules with
  | nil => simp
  | cons first rest ih =>
    rw [List.foldl_cons, ih, mem_names_setEnabled]
    grind

end Settings

theorem mem_sortNames {name : String} {names : List String} :
    name ∈ sortNames names ↔ name ∈ names := by
  have hloop (a : String) (rest acc : List String) :
      name ∈ List.eraseRepsBy.loop (· == ·) a rest acc ↔ name = a ∨ name ∈ rest ∨ name ∈ acc := by
    induction rest generalizing a acc with
    | nil => simp [List.eraseRepsBy.loop, or_comm]
    | cons b rest ih =>
      rw [List.eraseRepsBy.loop]
      split
      · rename_i heq
        rw [ih, eq_of_beq heq]
        grind
      · rw [ih]
        grind
  rw [sortNames, ← (List.mergeSort_perm names _).mem_iff]
  cases names.mergeSort fun a b => decide (a ≤ b) with
  | nil => simp [List.eraseReps, List.eraseRepsBy]
  | cons a rest => simp [List.eraseReps, List.eraseRepsBy, hloop]

namespace LinterPlan

variable {p : LinterPlan} {l : Linter} {keep all : List String}

def restrictTo (p : LinterPlan) (keep all : List String) : LinterPlan :=
  { p with settings := p.settings.restrictTo keep all }

theorem firstUnknown_eq_none_iff :
    p.firstUnknown = none ↔ ∀ name ∈ p.settings.rules.map (·.1), name ∈ p.validNames := by
  simp [firstUnknown, List.find?_eq_none, mem_sortNames]

theorem build_eq_ok_iff :
    p.build = .ok l ↔ firstClash [] p.names = none ∧ p.firstUnknown = none ∧
      l = ⟨p.enabledRules.map fun rule => { rule }, p.context,
        p.settings.maxFixPasses, p.keepBlanks⟩ := by
  unfold build
  cases firstClash [] p.names with
  | some name => simp
  | none =>
    cases p.firstUnknown with
    | some name => simp
    | none => simp [eq_comm]

theorem exists_build_restrictTo (keep : List String) (h : p.build = .ok l)
    (hvalid : ∀ name ∈ all, name ∈ p.validNames) :
    ∃ l', (p.restrictTo keep all).build = .ok l' := by
  obtain ⟨hclash, hunknown, -⟩ := build_eq_ok_iff.mp h
  refine ⟨_, build_eq_ok_iff.mpr ⟨hclash, ?_, rfl⟩⟩
  rw [firstUnknown_eq_none_iff] at hunknown ⊢
  intro name hname
  rcases Settings.mem_names_restrictTo.mp hname with hname | hname
  · exact hvalid name hname
  · exact hunknown name hname

theorem enabledRules_restrictTo (hall : ∀ r ∈ p.rules, r.name ∈ all)
    (hkeep : ∀ r ∈ p.rules, r.name ∈ keep → r ∈ p.enabledRules) :
    (p.restrictTo keep all).enabledRules = p.enabledRules.filter fun r => keep.contains r.name := by
  rw [enabledRules, enabledRules, List.filter_filter]
  apply List.filter_congr
  intro r hr
  rw [show (p.restrictTo keep all).settings = p.settings.restrictTo keep all from rfl,
    Settings.isRuleEnabled_restrictTo _ (hall r hr), Bool.eq_iff_iff, Bool.and_eq_true]
  refine ⟨fun hname => ⟨hname, ?_⟩, And.left⟩
  exact (List.mem_filter.mp (hkeep r hr (List.contains_iff_mem.mp hname))).2

end LinterPlan

/-! ## Sorted reports -/

namespace Offense

theorem StablySorted.unique {offenses sorted sorted' : List Offense}
    (h : StablySorted offenses sorted) (h' : StablySorted offenses sorted') : sorted' = sorted := by
  have hsame (p : Position) : sorted'.filter (·.location.start = p) =
      sorted.filter (·.location.start = p) :=
    (h'.stable p).trans (h.stable p).symm
  have horder := h.inOrder
  have horder' := h'.inOrder
  clear h h'
  induction sorted generalizing sorted' with
  | nil =>
    cases sorted' with
    | nil => rfl
    | cons b rest' => simpa using hsame b.location.start
  | cons a rest ih =>
    have ha := hsame a.location.start
    cases sorted' with
    | nil => simp at ha
    | cons b rest' =>
      have hle : b.location.start.le a.location.start = true := by
        have hmem : a ∈ b :: rest' := List.mem_of_mem_filter (by rw [ha]; simp)
        rcases List.mem_cons.mp hmem with rfl | hmem
        · exact Position.le_refl _
        · exact List.rel_of_pairwise_cons horder' hmem
      have hge : a.location.start.le b.location.start = true := by
        have hmem : b ∈ a :: rest := List.mem_of_mem_filter (by rw [← hsame b.location.start]; simp)
        rcases List.mem_cons.mp hmem with rfl | hmem
        · exact Position.le_refl _
        · exact List.rel_of_pairwise_cons horder hmem
      have hstart : b.location.start = a.location.start := Position.le_antisymm hle hge
      rw [List.filter_cons_of_pos (by simpa using hstart), List.filter_cons_of_pos (by simp)] at ha
      obtain ⟨rfl, -⟩ := List.cons.inj ha
      congr 1
      refine ih (fun p => ?_) horder.of_cons horder'.of_cons
      have hp := hsame p
      rw [List.filter_cons, List.filter_cons] at hp
      split at hp
      · exact (List.cons.inj hp).2
      · exact hp

theorem filter_sort_comm (keep : Offense → Bool) (offenses : List Offense) :
    (sort offenses).filter keep = sort (offenses.filter keep) := by
  have hsorted := stablySorted_sort offenses
  refine StablySorted.unique (stablySorted_sort _)
    ⟨hsorted.perm.filter keep, hsorted.inOrder.filter keep, fun p => ?_⟩
  rw [List.filter_filter, List.filter_filter]
  simp only [Bool.and_comm _ (keep _)]
  rw [← List.filter_filter, ← List.filter_filter, hsorted.stable p]

end Offense

/-! ## Restricted linters -/

namespace Linter

variable {l m m' : Linter} {d : Document}

/-- What the rules find in a document, with what directives have hidden of it. -/
def marks (l : Linter) (d : Document) : List Mark :=
  ((d.directives.filter (·.matched)).foldl (Suppressing.step l.context) (.start (l.raw d))).marks

theorem marks_eq (l : Linter) (d : Document) :
    l.marks d = (l.raw d).map fun o => ⟨o, decide (o.IsSilenced d.directives)⟩ :=
  Suppressing.marks_run _ _ _

theorem raw_eq (hl : ∀ a ∈ l.rules, a.rule.Confined) {c : Context}
    (hvalid : l.context.validNames = c.validNames)
    (hseverities : l.context.severities = c.severities) (d : Document) :
    l.raw d = (l.rules.map (·.rule)).flatMap fun r =>
      ((ActiveRule.mk r []).run d d.directives c).offenses := by
  rw [raw, List.flatMap_map]
  apply List.flatMap_congr
  intro a ha
  have hrule : a.rule = (ActiveRule.mk a.rule []).rule := rfl
  exact ActiveRule.offenses_run_confined hrule (hl a ha) hvalid hseverities d _

/-- A linter with some of another one's rules finds what that one finds under their names. -/
theorem raw_restricted {keep : List String} (hconfined : ∀ a ∈ m.rules, a.rule.Confined)
    (hrules : m'.rules.map (·.rule) = (m.rules.map (·.rule)).filter fun r => keep.contains r.name)
    (hvalid : m'.context.validNames = m.context.validNames)
    (hseverities : m'.context.severities = m.context.severities) (d : Document) :
    m'.raw d = (m.raw d).filter fun o => keep.contains o.rule := by
  have hrule : ∀ r ∈ m.rules.map (·.rule), r.Confined := by simpa using hconfined
  have hconfined' : ∀ a ∈ m'.rules, a.rule.Confined := by
    intro a ha
    have hmem : a.rule ∈ m'.rules.map (·.rule) := List.mem_map_of_mem ha
    rw [hrules] at hmem
    exact hrule _ (List.mem_filter.mp hmem).1
  rw [raw_eq hconfined' hvalid hseverities, raw_eq hconfined rfl rfl, hrules]
  generalize m.rules.map (·.rule) = rules at hrule
  induction rules with
  | nil => rfl
  | cons r rest ih =>
    rw [List.forall_mem_cons] at hrule
    -- What one rule reports goes or stays as a whole.
    have hown : ((ActiveRule.mk r []).run d d.directives m.context).offenses.filter
        (fun o => keep.contains o.rule) =
        if keep.contains r.name then ((ActiveRule.mk r []).run d d.directives m.context).offenses
        else [] := by
      rw [List.filter_congr fun o ho => by rw [ActiveRule.rule_of_mem_run hrule.1 ho]]
      cases keep.contains r.name <;> simp
    rw [List.flatMap_cons, List.filter_append, ← ih hrule.2, List.filter_cons, hown]
    split
    · rw [List.flatMap_cons]
    · rw [List.nil_append]

end Linter

/-- A linter built for some rules reports exactly what the linter with all of them reports under
their names. -/
theorem lint_restrictTo :
    (∀ preset : Rules.Preset, ∀ r ∈ preset.rules, r.Confined) ∧
    ∀ {plan : LinterPlan} {l : Linter}, plan.build = .ok l → (∀ r ∈ plan.rules, r.Confined) →
      ∀ {keep all : List String}, (∀ r ∈ plan.rules, r.name ∈ keep → r ∈ plan.enabledRules) →
      (∀ r ∈ plan.rules, r.name ∈ all) → (∀ name ∈ all, name ∈ plan.validNames) →
      ∃ l', (plan.restrictTo keep all).build = .ok l' ∧
        ∀ m m' : Linter, m.Alike l → m'.Alike l' → ∀ d : Document,
          (m'.lint d).value.offenses = (m.lint d).value.offenses.filter (fun o =>
            keep.contains o.rule) ∧
            (m'.lint d).value.suppressedCount =
              (m.marks d).countP fun k => k.hidden && keep.contains k.offense.rule := by
  refine ⟨fun _ _ => Rules.confined_of_mem, ?_⟩
  intro plan l hbuild hconfined keep all hkeep hall hvalid
  obtain ⟨l', hbuild'⟩ := LinterPlan.exists_build_restrictTo keep hbuild hvalid
  refine ⟨l', hbuild', fun m m' hm hm' d => ?_⟩
  obtain ⟨-, -, rfl⟩ := LinterPlan.build_eq_ok_iff.mp hbuild
  obtain ⟨-, -, rfl⟩ := LinterPlan.build_eq_ok_iff.mp hbuild'
  have hraw : m'.raw d = (m.raw d).filter fun o => keep.contains o.rule := by
    apply Linter.raw_restricted
    · intro a ha
      have hmem : a.rule ∈ m.rules.map (·.rule) := List.mem_map_of_mem ha
      rw [hm.rules, List.map_map] at hmem
      obtain ⟨r, hr, hra⟩ := List.mem_map.mp hmem
      exact hra ▸ hconfined r (List.mem_filter.mp hr).1
    · rw [hm'.rules, hm.rules]
      simp [Function.comp_def, LinterPlan.enabledRules_restrictTo hall hkeep]
    · rw [hm'.context, hm.context]
      rfl
    · rw [hm'.context, hm.context]
      exact Settings.severities_restrictTo _
  rw [Linter.value_lint, Linter.value_lint, offenses_suppress, offenses_suppress,
    suppressedCount_suppress, hraw, Offense.filter_sort_comm, Linter.marks_eq, List.countP_map,
    List.countP_filter, List.filter_filter, List.filter_filter]
  constructor
  · simp only [Bool.and_comm]
  · rfl

/-- A failing rule and the rule on tag names, without the rule on quotes between them. -/
theorem lint_restrictTo_failing_rule :
    let failing : Rule := .document
      { descriptor := { name := "fails", description := "" }
        check := fun _ _ _ => .error ⟨some "no"⟩ }
    let plan : LinterPlan :=
      { rules := [failing, Rules.quotedValue, Rules.tagName]
        settings := { rules := [("html-tag-name-lowercase", { severity := some .warning })] } }
    let keep := ["fails", "html-tag-name-lowercase"]
    ∃ l l' d, plan.build = .ok l ∧ (plan.restrictTo keep plan.names).build = .ok l' ∧
      l.parse "<B><%# herb:disable html-tag-name-lowercase %>\n<I id=x>" = .ok d ∧
      (l.marks d).map (fun k => (k.offense.rule, k.offense.severity, k.hidden)) =
        [("fails", .error, false), ("html-attribute-values-require-quotes", .error, false),
          ("html-tag-name-lowercase", .warning, true),
          ("html-tag-name-lowercase", .warning, false)] ∧
      (l'.lint d).value.offenses = (l.lint d).value.offenses.filter (fun o =>
        keep.contains o.rule) ∧
      (l'.lint d).value.suppressedCount = 1 := by
  intro failing plan keep
  let l : Linter :=
    ⟨[⟨failing, []⟩, ⟨Rules.quotedValue, []⟩, ⟨Rules.tagName, []⟩], plan.context, 10, true⟩
  have hbuild : plan.build = .ok l := by
    refine LinterPlan.build_eq_ok_iff.mpr
      ⟨by decide, LinterPlan.firstUnknown_eq_none_iff.mpr ?_, rfl⟩
    intro name hname
    exact mem_sortNames.mpr (List.mem_of_elem_eq_true (by revert name; decide))
  have hparse :
      (l.parse "<B><%# herb:disable html-tag-name-lowercase %>\n<I id=x>").toOption.any (fun d =>
      decide ((l.marks d).map (fun k => (k.offense.rule, k.offense.severity, k.hidden)) =
        [("fails", .error, false), ("html-attribute-values-require-quotes", .error, false),
          ("html-tag-name-lowercase", .warning, true),
          ("html-tag-name-lowercase", .warning, false)] ∧
        (l.marks d).countP (fun k => k.hidden && keep.contains k.offense.rule) = 1)) =
          true := by decide +kernel
  obtain ⟨d, hd, hfacts⟩ := exists_ok_of_any hparse
  obtain ⟨hmarks, hcount⟩ := of_decide_eq_true hfacts
  have hconfined : ∀ r ∈ plan.rules, r.Confined := by
    rw [List.forall_mem_cons]
    refine ⟨⟨fun hfind => by simp [ActiveRule.find, failing] at hfind, fun _ _ _ _ _ => rfl⟩,
      fun r hr => ?_⟩
    apply Rules.confined_of_mem (p := .recommended)
    simp only [List.mem_cons, List.not_mem_nil, or_false] at hr
    rcases hr with rfl | rfl <;> simp [Rules.Preset.rules, Rules.documentRules]
  obtain ⟨l', hbuild', hlint⟩ :=
    lint_restrictTo.2 hbuild hconfined (fun r hr _ => show r ∈ plan.rules from hr)
    (fun r hr => List.mem_map_of_mem hr)
      (fun name hname => mem_sortNames.mpr (List.mem_append_right _ hname))
  obtain ⟨hoffenses, hsuppressed⟩ := hlint l l' (.refl l) (.refl l') d
  exact ⟨l, l', d, hbuild, hbuild', hd, hmarks, hoffenses, by rw [hsuppressed, hcount]⟩

end TemplateLint
