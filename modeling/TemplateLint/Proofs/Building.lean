import TemplateLint.Proofs.ByteOrder
import TemplateLint.Proofs.Isolation

/-!
# Building linters

A plan is built unless two names clash or a configured name is unknown. Main statement: when a plan
is built, which error it gives otherwise, and which rules and names the linter has
(`build_outcome`).
-/

namespace TemplateLint

open Text

/-! ## Clashes -/

def ClashFree (names : List String) : Prop := names.Nodup ∧ unnecessaryRule ∉ names

/-- The first of the names that repeats an earlier one or is reserved. -/
def IsFirstClash (names : List String) (name : String) : Prop :=
  ∃ before after, names = before ++ name :: after ∧ ClashFree before ∧
    (name ∈ before ∨ name = unnecessaryRule)

theorem ClashFree.cons {seen : List String} {name : String} (h : ClashFree seen)
    (hname : ¬ (seen.contains name || name == unnecessaryRule) = true) :
    ClashFree (name :: seen) := by
  simp only [Bool.or_eq_true, List.contains_iff_mem, beq_iff_eq, not_or] at hname
  exact ⟨List.nodup_cons.mpr ⟨hname.1, h.1⟩,
    List.not_mem_cons_of_ne_of_not_mem (Ne.symm hname.2) h.2⟩

theorem firstClash_eq_some {seen names : List String} {name : String} (hseen : ClashFree seen)
    (h : firstClash seen names = some name) :
    ∃ before after, names = before ++ name :: after ∧ ClashFree (before.reverse ++ seen) ∧
      (name ∈ before.reverse ++ seen ∨ name = unnecessaryRule) := by
  -- `seen` are the names before, and they do not clash.
  induction names generalizing seen with
  | nil => simp [firstClash] at h
  | cons first rest ih =>
    rw [firstClash] at h
    split at h
    · rename_i hclash
      obtain rfl := Option.some.inj h
      exact ⟨[], rest, rfl, hseen, by simpa using hclash⟩
    · rename_i hfree
      obtain ⟨before, after, rfl, hbefore, hname⟩ := ih (hseen.cons hfree) h
      refine ⟨first :: before, after, rfl, ?_⟩
      rw [List.reverse_cons, List.append_assoc, List.singleton_append]
      exact ⟨hbefore, hname⟩

theorem firstClash_eq_none {seen names : List String} (hseen : ClashFree seen)
    (h : firstClash seen names = none) :
    ClashFree (names.reverse ++ seen) := by
  induction names generalizing seen with
  | nil => exact hseen
  | cons first rest ih =>
    rw [firstClash] at h
    split at h
    · cases h
    · rename_i hfree
      rw [List.reverse_cons, List.append_assoc, List.singleton_append]
      exact ih (hseen.cons hfree) h

theorem clashFree_reverse {names : List String} : ClashFree names.reverse ↔ ClashFree names := by
  rw [ClashFree, List.nodup_reverse, List.mem_reverse]
  rfl

theorem IsFirstClash.not_clashFree {names : List String} {name : String}
    (h : IsFirstClash names name) :
    ¬ ClashFree names := by
  obtain ⟨before, after, rfl, -, hname⟩ := h
  rintro ⟨hnodup, hreserved⟩
  rcases hname with hmem | rfl
  · exact (List.nodup_append.mp hnodup).2.2 name hmem name List.mem_cons_self rfl
  · exact hreserved (List.mem_append_right _ List.mem_cons_self)

theorem IsFirstClash.unique {names : List String} {a b : String} (ha : IsFirstClash names a)
    (hb : IsFirstClash names b) :
    a = b := by
  obtain ⟨before, after, rfl, hbefore, ha⟩ := ha
  obtain ⟨before', after', hsplit, hbefore', hb⟩ := hb
  -- The one of them that is behind the other would have a clash before it.
  rcases List.append_eq_append_iff.mp hsplit with ⟨more, rfl, hmore⟩ | ⟨more, rfl, hmore⟩
  · cases more with
    | nil => exact (List.cons.inj hmore).1
    | cons x more =>
      obtain ⟨rfl, rfl⟩ := List.cons.inj hmore
      exact absurd hbefore' (IsFirstClash.not_clashFree ⟨before, more, rfl, hbefore, ha⟩)
  · cases more with
    | nil => exact (List.cons.inj hmore).1.symm
    | cons x more =>
      obtain ⟨rfl, rfl⟩ := List.cons.inj hmore
      exact absurd hbefore (IsFirstClash.not_clashFree ⟨before', more, rfl, hbefore', hb⟩)

theorem clashFree_nil : ClashFree [] := ⟨List.nodup_nil, List.not_mem_nil⟩

theorem firstClash_eq_none_iff {names : List String} :
    firstClash [] names = none ↔ ClashFree names := by
  constructor
  · intro h
    have hfree := firstClash_eq_none clashFree_nil h
    rwa [List.append_nil, clashFree_reverse] at hfree
  · intro hfree
    cases h : firstClash [] names with
    | none => rfl
    | some name =>
      obtain ⟨before, after, hnames, hbefore, hname⟩ := firstClash_eq_some clashFree_nil h
      rw [List.append_nil, clashFree_reverse] at hbefore
      rw [List.append_nil, List.mem_reverse] at hname
      exact absurd hfree (IsFirstClash.not_clashFree ⟨before, after, hnames, hbefore, hname⟩)

theorem firstClash_eq_some_iff {names : List String} {name : String} :
    firstClash [] names = some name ↔ IsFirstClash names name := by
  have hfirst {name : String} (h : firstClash [] names = some name) : IsFirstClash names name := by
    obtain ⟨before, after, hnames, hbefore, hname⟩ := firstClash_eq_some clashFree_nil h
    rw [List.append_nil, clashFree_reverse] at hbefore
    rw [List.append_nil, List.mem_reverse] at hname
    exact ⟨before, after, hnames, hbefore, hname⟩
  refine ⟨hfirst, fun h => ?_⟩
  cases hclash : firstClash [] names with
  | none => exact absurd (firstClash_eq_none_iff.mp hclash) h.not_clashFree
  | some other => rw [(hfirst hclash).unique h]

/-! ## Names in order -/

theorem eraseReps_sublist (names : List String) : names.eraseReps.Sublist names := by
  -- The loop has taken `acc`, last first, and has `a` in hand.
  have hloop (a : String) (rest acc : List String) :
      (List.eraseRepsBy.loop (· == ·) a rest acc).Sublist (acc.reverse ++ a :: rest) := by
    induction rest generalizing a acc with
    | nil => simp [List.eraseRepsBy.loop]
    | cons b rest ih =>
      rw [List.eraseRepsBy.loop]
      split
      · refine (ih a acc).trans ?_
        simp
      · simpa using ih b (a :: acc)
  cases names with
  | nil => simp [List.eraseReps, List.eraseRepsBy]
  | cons a rest => simpa [List.eraseReps, List.eraseRepsBy] using hloop a rest []

theorem sortNames_pairwise (names : List String) : (sortNames names).Pairwise (· ≤ ·) := by
  have hsorted : (names.mergeSort fun a b => decide (a ≤ b)).Pairwise fun a b =>
      decide (a ≤ b) = true := by
    apply List.pairwise_mergeSort
    · intro a b c hab hbc
      rw [decide_eq_true_eq] at *
      exact le_trans hab hbc
    · intro a b
      rw [Bool.or_eq_true, decide_eq_true_eq, decide_eq_true_eq]
      exact le_total a b
  refine (hsorted.sublist (eraseReps_sublist _)).imp fun h => ?_
  rwa [decide_eq_true_eq] at h

namespace LinterPlan

variable {p : LinterPlan} {name : String}

/-! ## Unknown names -/

/-- A rule has the name, or it is known without one. -/
def Knows (p : LinterPlan) (name : String) : Prop :=
  name ∈ p.names ∨ name ∈ p.knownNames ∨ name = unnecessaryRule

instance (p : LinterPlan) (name : String) : Decidable (p.Knows name) :=
  inferInstanceAs (Decidable (_ ∨ _))

def configuredNames (p : LinterPlan) : List String := p.settings.rules.map (·.1)

/-- The unknown name with the least bytes among those that something is set for. -/
def IsLeastUnknown (p : LinterPlan) (name : String) : Prop :=
  name ∈ p.configuredNames ∧ ¬ p.Knows name ∧
    ∀ other ∈ p.configuredNames, ¬ p.Knows other → utf8Bytes name ≤ utf8Bytes other

theorem mem_validNames : name ∈ p.validNames ↔ p.Knows name := by
  rw [validNames, mem_sortNames, List.cons_append, List.mem_cons, List.mem_append, Knows]
  tauto

theorem firstUnknown_eq_none :
    p.firstUnknown = none ↔ ∀ name ∈ p.configuredNames, p.Knows name := by
  simp only [firstUnknown_eq_none_iff, mem_validNames]
  rfl

theorem IsLeastUnknown.unique {other : String} (h : p.IsLeastUnknown name)
    (h' : p.IsLeastUnknown other) :
    name = other := by
  obtain ⟨hmem, hunknown, hleast⟩ := h
  obtain ⟨hmem', hunknown', hleast'⟩ := h'
  apply le_antisymm
  · exact (le_iff_utf8Bytes _ _).mpr (hleast other hmem' hunknown')
  · exact (le_iff_utf8Bytes _ _).mpr (hleast' name hmem hunknown)

theorem firstUnknown_eq_some_iff : p.firstUnknown = some name ↔ p.IsLeastUnknown name := by
  have hleast {name : String} (h : p.firstUnknown = some name) : p.IsLeastUnknown name := by
    obtain ⟨hunknown, before, after, hsplit, hbefore⟩ := List.find?_eq_some_iff_append.mp h
    have hsorted := sortNames_pairwise p.configuredNames
    have hmem {name : String} (hname : name ∈ p.configuredNames) : name ∈ before ++ _ :: after :=
      hsplit ▸ mem_sortNames.mpr hname
    refine ⟨mem_sortNames.mp (hsplit ▸ List.mem_append_right _ List.mem_cons_self), ?_,
      fun other hother hnot => ?_⟩
    · rw [← mem_validNames]
      simpa using hunknown
    · rw [← le_iff_utf8Bytes]
      rcases List.mem_append.mp (hmem hother) with hother | hother
      · -- What stands before the first unknown name is known.
        have hvalid := hbefore other hother
        rw [← mem_validNames] at hnot
        simp [hnot] at hvalid
      · rcases List.mem_cons.mp hother with rfl | hother
        · exact le_refl _
        · rw [configuredNames, hsplit, List.pairwise_append, List.pairwise_cons] at hsorted
          exact hsorted.2.1.1 other hother
  refine ⟨hleast, fun h => ?_⟩
  cases hfirst : p.firstUnknown with
  | none => exact absurd (firstUnknown_eq_none.mp hfirst name h.1) h.2.1
  | some other => rw [(hleast hfirst).unique h]

/-! ## What is built -/

/-- What is set about running the rule, if anything is. -/
def switch? (p : LinterPlan) (name : String) : Option Bool :=
  (p.settings.rules.lookup name).bind (·.enabled)

/-- The rule is switched on, or it is on by default and not switched off. -/
def Runs (p : LinterPlan) (r : Rule) : Prop :=
  p.switch? r.name = some true ∨ p.switch? r.name = none ∧ r.descriptor.enabledByDefault = true

instance (p : LinterPlan) (r : Rule) : Decidable (p.Runs r) := inferInstanceAs (Decidable (_ ∨ _))

theorem isRuleEnabled_iff (p : LinterPlan) (name : String) (byDefault : Bool) :
    p.settings.isRuleEnabled name byDefault = true ↔
      p.switch? name = some true ∨ p.switch? name = none ∧ byDefault = true := by
  change (p.switch? name).getD byDefault = true ↔ _
  cases p.switch? name <;> simp

theorem enabledRules_eq (p : LinterPlan) :
    p.enabledRules = p.rules.filter fun r => decide (p.Runs r) := by
  apply List.filter_congr
  intro r _
  rw [Bool.eq_iff_iff, isRuleEnabled_iff, decide_eq_true_eq]
  rfl

theorem mem_enabledNames (p : LinterPlan) (name : String) : name ∈ p.context.enabledNames ↔
    (∃ r ∈ p.rules, p.Runs r ∧ r.name = name) ∨ name = unnecessaryRule ∧
    p.switch? unnecessaryRule ≠ some false := by
  have hreserved :
      name ∈ (if p.settings.isRuleEnabled unnecessaryRule true then [unnecessaryRule] else []) ↔
      name = unnecessaryRule ∧ p.switch? unnecessaryRule ≠ some false := by
    have hswitch := p.isRuleEnabled_iff unnecessaryRule true
    split
    · rename_i hon
      rw [hon] at hswitch
      rcases hswitch.mp rfl with hsome | hnone
      · simp [hsome]
      · simp [hnone.1]
    · rename_i hoff
      rcases hvalue : p.switch? unnecessaryRule with _ | _ | _
      · exact absurd (hswitch.mpr (Or.inr ⟨hvalue, rfl⟩)) hoff
      · simp
      · exact absurd (hswitch.mpr (Or.inl hvalue)) hoff
  rw [context, mem_sortNames, List.mem_append, hreserved, enabledRules_eq]
  simp [and_assoc]

theorem build_eq_error_iff {e : ConfigError} : p.build = .error e ↔
    (∃ name, firstClash [] p.names = some name ∧ e = .duplicateRule name) ∨
      firstClash [] p.names = none ∧ ∃ name, p.firstUnknown = some name ∧
        e = .unknownRule name := by
  unfold build
  cases firstClash [] p.names with
  | some name => simp [eq_comm]
  | none =>
    cases p.firstUnknown with
    | some name => simp [eq_comm]
    | none => simp

theorem build_eq_error_congr {q : LinterPlan} {e : ConfigError} (hnames : q.names = p.names)
    (hknown : q.knownNames = p.knownNames)
    (hset : ∀ name, name ∈ q.configuredNames ↔ name ∈ p.configuredNames) :
    q.build = .error e ↔ p.build = .error e := by
  have hleast (name : String) : q.IsLeastUnknown name ↔ p.IsLeastUnknown name := by
    simp only [IsLeastUnknown, Knows, hnames, hknown, hset]
  simp only [build_eq_error_iff, firstUnknown_eq_some_iff, hnames, hleast]

end LinterPlan

/-- A plan is built, or refused for its first clash, or else for the least unknown name that is
configured. -/
theorem build_outcome (p : LinterPlan) :
    ((∃ l, p.build = .ok l) ↔
      p.names.Nodup ∧ unnecessaryRule ∉ p.names ∧ ∀ name ∈ p.configuredNames, p.Knows name) ∧
    (∀ name, p.build = .error (.duplicateRule name) ↔ IsFirstClash p.names name) ∧
    (∀ name, p.build = .error (.unknownRule name) ↔ ClashFree p.names ∧ p.IsLeastUnknown name) ∧
    (∀ e, p.build = .error e → ∃ name, e = .duplicateRule name ∨ e = .unknownRule name) ∧
    (∀ rules, rules.Perm p.settings.rules → ∀ e,
      LinterPlan.build { p with settings := { p.settings with rules } } = .error e ↔
        p.build = .error e) ∧
    ∀ l, p.build = .ok l →
      l.rules.map (·.rule) = p.rules.filter (fun r => decide (p.Runs r)) ∧
      (∀ name, name ∈ l.context.enabledNames ↔
        name ∈ l.rules.map (·.rule.name) ∨ name = unnecessaryRule ∧
        p.switch? unnecessaryRule ≠ some false) ∧
      (∀ name, name ∈ l.context.validNames ↔ p.Knows name) ∧
      ∀ name ∈ l.context.enabledNames, name ∈ l.context.validNames := by
  refine ⟨?_, ?_, ?_, ?_, ?_, ?_⟩
  · rw [← and_assoc, ← ClashFree, ← firstClash_eq_none_iff, ← LinterPlan.firstUnknown_eq_none]
    simp only [LinterPlan.build_eq_ok_iff, exists_and_left, exists_eq, and_true]
  · intro name
    simp [LinterPlan.build_eq_error_iff, firstClash_eq_some_iff]
  · intro name
    simp [LinterPlan.build_eq_error_iff, firstClash_eq_none_iff,
      LinterPlan.firstUnknown_eq_some_iff]
  · intro e he
    rcases LinterPlan.build_eq_error_iff.mp he with ⟨name, -, rfl⟩ | ⟨-, name, -, rfl⟩
    · exact ⟨name, Or.inl rfl⟩
    · exact ⟨name, Or.inr rfl⟩
  · intro rules hperm e
    exact LinterPlan.build_eq_error_congr rfl rfl fun name => (hperm.map _).mem_iff
  · intro l hl
    obtain ⟨-, -, rfl⟩ := LinterPlan.build_eq_ok_iff.mp hl
    have hrules : (p.enabledRules.map fun rule => ({ rule } : ActiveRule)).map
        (·.rule) = p.enabledRules := by
      rw [List.map_map]
      exact List.map_id _
    have hnames (name : String) : name ∈ p.context.enabledNames ↔
        name ∈ p.enabledRules.map (·.name) ∨
        name = unnecessaryRule ∧ p.switch? unnecessaryRule ≠ some false := by
      rw [p.mem_enabledNames, p.enabledRules_eq]
      simp [and_assoc]
    refine ⟨hrules.trans p.enabledRules_eq, fun name => ?_,
      fun name => LinterPlan.mem_validNames, fun name hname => ?_⟩
    · rw [hnames, List.map_map]
      rfl
    · refine LinterPlan.mem_validNames.mpr ?_
      rcases (p.mem_enabledNames name).mp hname with ⟨r, hr, -, rfl⟩ | ⟨rfl, -⟩
      · exact Or.inl (List.mem_map_of_mem hr)
      · exact Or.inr (Or.inr rfl)

def idleRule (name : String) (enabledByDefault : Bool) : Rule :=
  .directive (.plain { name, description := "", enabledByDefault } fun _ _ => [])

/-- Three rules; one is off by default but switched on, one is switched off. -/
def switchedPlan : LinterPlan where
  rules := [idleRule "c" true, idleRule "b" false, idleRule "a" true]
  knownNames := ["k"]
  settings :=
    { rules := [("k", {}), ("b", { enabled := some true }), ("a", { enabled := some false })] }

/-- Three names that no rule has, and a rule that is there twice. -/
def strayPlan (twice : Bool) : LinterPlan where
  rules := if twice then [idleRule "b" true, idleRule "b" false] else [idleRule "b" true]
  settings := { rules := [("é", {}), ("z", {}), ("b", {}), ("zz", {})] }

theorem build_outcome_stray :
    (∃ l, switchedPlan.build = .ok l ∧ l.rules.map (·.rule.name) = ["c", "b"] ∧
      unnecessaryRule ∈ l.context.enabledNames) ∧
      (strayPlan false).build = .error (.unknownRule "z") ∧
      (strayPlan true).build = .error (.duplicateRule "b") := by
  refine ⟨?_, ?_, ?_⟩
  · obtain ⟨l, hl⟩ := (build_outcome switchedPlan).1.mpr ⟨by decide, by decide, by decide⟩
    obtain ⟨hrules, henabled, -⟩ := (build_outcome switchedPlan).2.2.2.2.2 l hl
    refine ⟨l, hl, ?_, (henabled _).mpr (Or.inr ⟨rfl, by decide⟩)⟩
    have hnames := congrArg (List.map Rule.name) hrules
    rw [List.map_map] at hnames
    exact hnames.trans (by decide)
  · refine ((build_outcome (strayPlan false)).2.2.1 "z").mpr
      ⟨⟨by decide, by decide⟩, by decide, by decide, ?_⟩
    simp only [← le_iff_utf8Bytes]
    decide
  · refine ((build_outcome (strayPlan true)).2.1 "b").mpr
      ⟨["b"], [], by decide, ⟨by decide, by decide⟩, by decide⟩

end TemplateLint
