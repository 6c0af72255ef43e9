import TemplateLint.Linter
import TemplateLint.Proofs.Attempts
import TemplateLint.Proofs.RoundTrip
import TemplateLint.Rules.Catalog
import Mathlib.Data.List.Forall2

/-!
# Passes

A linter whose rules forget what they noted answers alike whenever it is asked. A pass over a text
either comes to rest or prints another text. So what fixing leaves before its cap is reached is
left by fixing again as it is (`fixSource_fixpoint`).
-/

namespace TemplateLint

/-! ## Rules without memory -/

/-- What the rule finds in a document does not depend on what it noted before. -/
def Rule.ChecksAnew : Rule → Prop
  | .document r => ∀ d c before before',
      (r.check d c (r.reset before)).map (·.1) = (r.check d c (r.reset before')).map (·.1)
  | .directive r => ∀ c directives before before',
      (r.checkAll c directives (r.reset before)).map (·.1) =
        (r.checkAll c directives (r.reset before')).map (·.1)

/-- How the rule mends does not depend on what it noted. -/
def Rule.FixesAnew : Rule → Prop
  | .document r => ∀ id notes notes', r.fix id notes = r.fix id notes'
  | .directive _ => True

structure Rule.Forgets (r : Rule) : Prop where
  check : r.ChecksAnew
  fix : r.FixesAnew

theorem DirectiveRule.checkAll_plain (descriptor : Descriptor)
    (check : Directive → Context → List Offense) (c : Context)
    (directives : List Directive) (notes : List Note) :
    (DirectiveRule.plain descriptor check).checkAll c directives notes =
      .ok (directives.flatMap (check · c), notes) := by
  induction directives with
  | nil => rfl
  | cons d rest ih =>
    have hcheck : (DirectiveRule.plain descriptor check).check d c notes =
        .ok (check d c, notes) := rfl
    simp [checkAll, hcheck, ih]

theorem Rule.forgets_plain (descriptor : Descriptor)
    (check : Directive → Context → List Offense) :
    (Rule.directive (.plain descriptor check)).Forgets := by
  refine ⟨fun c directives before before' => ?_, trivial⟩
  simp only [DirectiveRule.checkAll_plain, Except.map]

theorem Rules.Preset.mem_recommended {p : Preset} {r : Rule} (h : r ∈ p.rules) :
    r ∈ recommended.rules := by
  cases p with
  | recommended => exact h
  | minimal => exact List.mem_append_left _ h

theorem Rules.forgets_of_mem {p : Rules.Preset} {r : Rule} (h : r ∈ p.rules) : r.Forgets := by
  have hall := Preset.mem_recommended h
  simp only [Preset.rules, directiveRules, documentRules, List.mem_append,
    List.mem_cons, List.not_mem_nil, or_false] at hall
  rcases hall with (rfl | rfl | rfl | rfl | rfl) | rfl | rfl | rfl | rfl | rfl
  iterate 5 exact Rule.forgets_plain _ _
  all_goals exact ⟨fun _ _ _ _ => rfl, fun _ _ _ => rfl⟩

namespace ActiveRule

variable {a a' : ActiveRule}

theorem find_congr (hrule : a'.rule = a.rule) (h : a.rule.ChecksAnew) (d : Document)
    (directives : List Directive) (c : Context) :
    (a'.find d directives c).map (·.1) = (a.find d directives c).map (·.1) := by
  unfold find
  rw [hrule]
  cases hr : a.rule with
  | document r =>
    rw [hr] at h
    exact h d c a'.notes a.notes
  | directive r =>
    rw [hr] at h
    exact h c directives a'.notes a.notes

theorem offenses_run_congr (hrule : a'.rule = a.rule) (h : a.rule.ChecksAnew) (d : Document)
    (directives : List Directive) (c : Context) :
    (a'.run d directives c).offenses = (a.run d directives c).offenses := by
  have hfind := find_congr hrule h d directives c
  unfold run
  rw [hrule]
  cases hf' : a'.find d directives c <;> cases hf : a.find d directives c <;>
    simp only [hf, hf', Except.map, Except.ok.injEq, Except.error.injEq, reduceCtorEq] at hfind ⊢
  · rw [hfind]
  · rw [hfind]

@[simp] theorem rule_run (a : ActiveRule) (d : Document)
    (directives : List Directive) (c : Context) :
    (a.run d directives c).rule.rule = a.rule := by
  unfold run
  cases a.find d directives c <;> rfl

theorem fix?_congr (hrule : a'.rule = a.rule) (h : a.rule.FixesAnew) (name : String) :
    a'.fix? name = a.fix? name := by
  unfold fix?
  rw [hrule]
  cases hr : a.rule with
  | document r =>
    rw [hr] at h
    simp only [h _ a'.notes a.notes]
  | directive r => rfl

end ActiveRule

/-! ## Linters that differ in notes only -/

namespace Linter

variable {l l' : Linter} {mode : FixMode} {source : String} {d : Document}
  {state final : Fixing} {left : Nat}

/-- The same rules in the same setting, whatever they have noted. -/
structure Alike (l l' : Linter) : Prop where
  rules : l.rules.map (·.rule) = l'.rules.map (·.rule)
  context : l.context = l'.context
  maxFixPasses : l.maxFixPasses = l'.maxFixPasses
  keepBlanks : l.keepBlanks = l'.keepBlanks

def ChecksAnew (l : Linter) : Prop := ∀ a ∈ l.rules, a.rule.ChecksAnew

/-- Every rule forgets its notes when a document begins, and mends without them. -/
def Forgets (l : Linter) : Prop := ∀ a ∈ l.rules, a.rule.Forgets

theorem Forgets.checksAnew (hl : l.Forgets) : l.ChecksAnew := fun a ha => (hl a ha).check

theorem Alike.refl (l : Linter) : l.Alike l := ⟨rfl, rfl, rfl, rfl⟩

theorem Alike.symm (h : l'.Alike l) : l.Alike l' :=
  ⟨h.rules.symm, h.context.symm, h.maxFixPasses.symm, h.keepBlanks.symm⟩

theorem Alike.trans {l'' : Linter} (h : l.Alike l') (h' : l'.Alike l'') : l.Alike l'' :=
  ⟨h.rules.trans h'.rules, h.context.trans h'.context, h.maxFixPasses.trans h'.maxFixPasses,
    h.keepBlanks.trans h'.keepBlanks⟩

theorem Alike.forall_rules (h : l'.Alike l) {p : Rule → Prop} (hl : ∀ a ∈ l.rules, p a.rule) :
    ∀ a ∈ l'.rules, p a.rule := by
  have hrules : ∀ r ∈ l'.rules.map (·.rule), p r := by
    rw [h.rules]
    simpa using hl
  simpa using hrules

theorem Alike.forgets (h : l'.Alike l) (hl : l.Forgets) : l'.Forgets := h.forall_rules hl

theorem Alike.parse (h : l'.Alike l) (source : String) : l'.parse source = l.parse source := by
  rw [Linter.parse, Linter.parse, h.keepBlanks]

theorem alike_lint (l : Linter) (d : Document) : (l.lint d).linter.Alike l := by
  refine ⟨?_, rfl, rfl, rfl⟩
  simp [lint, Function.comp_def]

def raw (l : Linter) (d : Document) : List Offense :=
  l.rules.flatMap fun a => (a.run d d.directives l.context).offenses

theorem value_lint (l : Linter) (d : Document) :
    (l.lint d).value = suppress (l.raw d) d.directives l.context := by
  simp [lint, raw, List.flatMap_map]

theorem Alike.map_rules {α : Type} {f : ActiveRule → α} (h : l'.Alike l)
    (hf : ∀ a' a : ActiveRule, a ∈ l.rules → a'.rule = a.rule → f a' = f a) :
    l'.rules.map f = l.rules.map f := by
  -- The rules correspond one by one, as the list of rules is the same.
  have hrules : List.Forall₂ (fun a' a : ActiveRule => a'.rule = a.rule) l'.rules l.rules := by
    have hmap := h.rules
    rwa [← List.forall₂_eq_eq_eq, List.forall₂_map_left_iff, List.forall₂_map_right_iff] at hmap
  rw [← List.forall₂_eq_eq_eq, List.forall₂_map_left_iff, List.forall₂_map_right_iff]
  rw [List.forall₂_iff_get] at hrules ⊢
  exact ⟨hrules.1, fun i h₁ h₂ => hf _ _ (List.get_mem _ _) (hrules.2 i h₁ h₂)⟩

theorem Alike.raw (h : l'.Alike l) (hl : l.ChecksAnew) (d : Document) : l'.raw d = l.raw d := by
  rw [Linter.raw, Linter.raw, h.context, List.flatMap_def, List.flatMap_def, h.map_rules]
  intro a' a ha hrule
  exact ActiveRule.offenses_run_congr hrule (hl a ha) d _ _

theorem Alike.value_lint (h : l'.Alike l) (hl : l.ChecksAnew) (d : Document) :
    (l'.lint d).value = (l.lint d).value := by
  rw [Linter.value_lint, Linter.value_lint, h.raw hl, h.context]

theorem Alike.fix? (h : l'.Alike l) (hl : l.Forgets) : l'.fix? = l.fix? := by
  funext name
  have hmap (l : Linter) : l.fix? name = (l.rules.map (·.fix? name)).findSome? id := by
    rw [List.findSome?_map]
    rfl
  rw [hmap l', hmap l, h.map_rules]
  intro a' a ha hrule
  exact ActiveRule.fix?_congr hrule (hl a ha).fix name

/-! ## One pass -/

/-- The pass that the linter makes over a document that it has looked at. -/
def pass (l : Linter) (mode : FixMode) (d : Document) : FixPass :=
  (l.lint d).linter.applyFixes d (l.lint d).value.offenses mode

theorem applyFixes_lint (l : Linter) (mode : FixMode) (d : Document) :
    (l.lint d).linter.applyFixes d (l.lint d).value.offenses mode = l.pass mode d := by
  rw [pass]

theorem Forgets.pass_eq (hl : l.Forgets) (mode : FixMode) (d : Document) :
    l.pass mode d = .run l.fix? mode d (l.lint d).value.offenses := by
  rw [pass, applyFixes, (alike_lint l d).fix? hl]

theorem Alike.pass (h : l'.Alike l) (hl : l.Forgets) (mode : FixMode) (d : Document) :
    l'.pass mode d = l.pass mode d := by
  rw [(h.forgets hl).pass_eq, hl.pass_eq, h.value_lint hl.checksAnew, h.fix? hl]

/-- The fixes that a pass over a document runs, and how each of them ends. -/
def tries (l : Linter) (mode : FixMode) (d : Document) : List (Offense × Outcome) :=
  FixPass.tries (l.lint d).linter.fix? mode d (l.lint d).value.offenses

/-- What went wrong in a pass over a document, each failure where its offense is. -/
def faults (l : Linter) (mode : FixMode) (d : Document) : List Offense :=
  (l.tries mode d).filterMap fun t => t.2.report? t.1

theorem accounts_pass (l : Linter) (mode : FixMode) (d : Document) :
    FixPass.Accounts { document := d } (l.pass mode d) (l.lint d).value.offenses (l.tries mode d) :=
  FixPass.accounts_foldl _ _

theorem failures_pass (l : Linter) (mode : FixMode) (d : Document) :
    (l.pass mode d).failures = l.faults mode d := by
  rw [(accounts_pass l mode d).failures, List.nil_append]
  rfl

theorem pass_of_not_fixable (h : (l.lint d).value.fixableCount = 0) (mode : FixMode) :
    (l.pass mode d).applied = 0 ∧ l.faults mode d = [] := by
  have hfix : ∀ o ∈ (l.lint d).value.offenses, o.fix = none := by
    simpa [LintResult.fixableCount, Offense.isFixable, List.countP_eq_zero] using h
  have hnone : l.tries mode d = [] := FixPass.tries_of_no_fix hfix d
  exact ⟨by simp [(accounts_pass l mode d).applied, hnone], by simp [faults, hnone]⟩

/-- A pass over the document of a text leaves the text as it is. -/
def Rests (l : Linter) (mode : FixMode) (source : String) (d : Document) : Prop :=
  (l.lint d).value.fixableCount = 0 ∨ (l.pass mode d).applied = 0 ∨
  (l.pass mode d).document.print = source

theorem rests_iff : l.Rests mode source d ↔
    (l.pass mode d).applied = 0 ∨ (l.pass mode d).document.print = source := by
  constructor
  · rintro (hfixable | hstop)
    · exact Or.inl (pass_of_not_fixable hfixable mode).1
    · exact hstop
  · exact Or.inr

theorem Alike.rests (h : l'.Alike l) (hl : l.Forgets) (hrests : l.Rests mode source d) :
    l'.Rests mode source d := by
  rw [Rests, h.value_lint hl.checksAnew, h.pass hl]
  exact hrests

def advance (l : Linter) (mode : FixMode) (d : Document) (state : Fixing) : Fixing :=
  { source := (l.pass mode d).document.print
    passes := state.passes + 1
    applied := state.applied + (l.pass mode d).applied
    failures := (l.pass mode d).failures.foldl addFailure state.failures }

theorem fixPasses_of_error {e : ParseError} (hparse : l.parse state.source = .error e) :
    l.fixPasses mode (left + 1) state = ⟨.error e, l, []⟩ := by
  simp [fixPasses, hparse]

theorem fixPasses_of_rests (left : Nat) (hparse : l.parse state.source = .ok d)
    (hrests : l.Rests mode state.source d) :
    (l.fixPasses mode (left + 1) state).value =
        .ok { state with failures := (l.faults mode d).foldl addFailure state.failures } ∧
      (l.fixPasses mode (left + 1) state).linter = (l.lint d).linter := by
  by_cases hfix : (l.lint d).value.fixableCount = 0
  · simp [fixPasses, hparse, hfix, (pass_of_not_fixable hfix mode).2]
  · have hstop := hrests.resolve_left hfix
    simp [fixPasses, hparse, hfix, applyFixes_lint, hstop, failures_pass]

theorem fixPasses_of_not_rests (hparse : l.parse state.source = .ok d)
    (hrests : ¬ l.Rests mode state.source d) :
    (l.fixPasses mode (left + 1) state).value =
        ((l.lint d).linter.fixPasses mode left (l.advance mode d state)).value ∧
      (l.fixPasses mode (left + 1) state).linter =
        ((l.lint d).linter.fixPasses mode left (l.advance mode d state)).linter := by
  simp only [Rests, not_or] at hrests
  simp [fixPasses, hparse, applyFixes_lint, hrests, advance]

/-! ## All passes -/

theorem alike_fixPasses (l : Linter) (mode : FixMode) (left : Nat) (state : Fixing) :
    (l.fixPasses mode left state).linter.Alike l := by
  induction left generalizing l state with
  | zero => exact Alike.refl l
  | succ left ih =>
    cases hparse : l.parse state.source with
    | error e =>
      rw [fixPasses_of_error hparse]
      exact Alike.refl l
    | ok d =>
      by_cases hrests : l.Rests mode state.source d
      · rw [(fixPasses_of_rests left hparse hrests).2]
        exact alike_lint l d
      · rw [(fixPasses_of_not_rests hparse hrests).2]
        exact (ih _ _).trans (alike_lint l d)

/-- Fixing with `left` passes to go leads from one state to another: capped, at rest or changed by a
pass. -/
inductive Leads (mode : FixMode) : Linter → Nat → Fixing → Fixing → Prop where
  | cap (l : Linter) (state : Fixing) : Leads mode l 0 state state
  | rest {l : Linter} {left : Nat} {state : Fixing} {d : Document}
      (hparse : l.parse state.source = .ok d) (hrests : l.Rests mode state.source d) :
      Leads mode l (left + 1) state
        { state with failures := (l.faults mode d).foldl addFailure state.failures }
  | pass {l : Linter} {left : Nat} {state final : Fixing} {d : Document}
      (hparse : l.parse state.source = .ok d) (hrests : ¬ l.Rests mode state.source d)
      (hnext : Leads mode (l.lint d).linter left (l.advance mode d state) final) :
      Leads mode l (left + 1) state final

theorem leads_fixPasses (h : (l.fixPasses mode left state).value = .ok final) :
    Leads mode l left state final := by
  induction left generalizing l state with
  | zero =>
    cases h
    exact .cap l _
  | succ left ih =>
    cases hparse : l.parse state.source with
    | error e =>
      rw [fixPasses_of_error hparse] at h
      cases h
    | ok d =>
      by_cases hrests : l.Rests mode state.source d
      · rw [(fixPasses_of_rests left hparse hrests).1] at h
        cases h
        exact .rest hparse hrests
      · rw [(fixPasses_of_not_rests hparse hrests).1] at h
        exact .pass hparse hrests (ih h)

/-- What is left of a text after at most `left` passes, of which those count that change it. -/
structure Ends (l : Linter) (mode : FixMode) (left : Nat) (state final : Fixing) : Prop where
  passes_le : final.passes ≤ state.passes + left
  le_passes : state.passes ≤ final.passes
  unchanged : final.passes = state.passes → final.source = state.source ∧
    final.applied = state.applied
  rests : final.passes < state.passes + left → ∃ d, l.parse final.source = .ok d ∧
    l.Rests mode final.source d

theorem Leads.ends (h : Leads mode l left state final) (hl : l.Forgets) :
    l.Ends mode left state final := by
  induction h with
  | cap l state => exact ⟨by simp, by simp, by simp, by simp⟩
  | @rest l left state d hparse hrests =>
    exact ⟨by simp, by simp, by simp, fun _ => ⟨d, hparse, hrests⟩⟩
  | @pass l left state final d hparse hrests hnext ih =>
    -- The linter goes on with other notes, but what it leaves is at rest for this one too.
    have halike := alike_lint l d
    have hends := ih (halike.forgets hl)
    have hle := hends.passes_le
    have hge := hends.le_passes
    simp only [advance] at hle hge
    refine ⟨by omega, by omega, fun heq => by omega, fun hlt => ?_⟩
    obtain ⟨d', hparse', hrests'⟩ := hends.rests (by simp only [advance]; omega)
    exact ⟨d', (halike.parse _).symm.trans hparse', halike.symm.rests (halike.forgets hl) hrests'⟩

theorem fixSource_eq_ok_iff {r : FixReport} :
    (l.fixSource source mode).value = .ok r ↔ ∃ final d,
      (l.fixPasses mode l.maxFixPasses { source }).value = .ok final ∧
        l.parse final.source = .ok d ∧
        r = ⟨final.source, final.passes, final.applied,
          let result := ((l.fixPasses mode l.maxFixPasses { source }).linter.lint d).value
          { result with offenses := Offense.sort (result.offenses ++ final.failures) }⟩ := by
  have halike := alike_fixPasses l mode l.maxFixPasses { source }
  unfold fixSource
  cases hpasses : (l.fixPasses mode l.maxFixPasses { source }).value with
  | error e => simp [hpasses]
  | ok final =>
    simp only [hpasses, lintSource, halike.parse]
    cases hparse : l.parse final.source with
    | error e => simp [hparse]
    | ok d => simp [hparse, eq_comm]

theorem alike_fixSource (l : Linter) (source : String) (mode : FixMode) :
    (l.fixSource source mode).linter.Alike l := by
  have halike := alike_fixPasses l mode l.maxFixPasses { source }
  unfold fixSource
  cases hpasses : (l.fixPasses mode l.maxFixPasses { source }).value with
  | error e => simpa only [hpasses] using halike
  | ok final =>
    simp only [hpasses, lintSource, halike.parse]
    cases hparse : l.parse final.source with
    | error e => simpa only [hparse] using halike
    | ok d =>
      simp only
      exact (alike_lint _ d).trans halike

end Linter

/-- Fixing stops at a fixed point or at the cap; below the cap, a second run changes nothing. -/
theorem fixSource_fixpoint {l : Linter} (hl : l.Forgets) {source : String}
    {mode : FixMode} {r : FixReport} (h : (l.fixSource source mode).value = .ok r) :
    r.passes ≤ l.maxFixPasses ∧ (r.passes = 0 → r.source = source ∧ r.applied = 0) ∧
      (l.fixSource source mode).linter.Alike l ∧
      (r.passes < l.maxFixPasses → ∀ l' : Linter, l'.Alike l → ∃ again,
        (l'.fixSource r.source mode).value = .ok again ∧
          again.source = r.source ∧ again.passes = 0 ∧ again.applied = 0) := by
  obtain ⟨final, d, hpasses, hparse, rfl⟩ := Linter.fixSource_eq_ok_iff.mp h
  have hends := (Linter.leads_fixPasses hpasses).ends hl
  refine ⟨by simpa using hends.passes_le, hends.unchanged, l.alike_fixSource source mode, ?_⟩
  intro hlt l' hl'
  obtain ⟨d', hparse', hrests⟩ := hends.rests (by simpa using hlt)
  rw [hparse] at hparse'
  cases hparse'
  obtain ⟨left, hleft⟩ := Nat.exists_eq_succ_of_ne_zero (Nat.ne_zero_of_lt hlt)
  let state : Fixing := { source := final.source }
  have hparse' : l'.parse state.source = .ok d := (hl'.parse _).trans hparse
  obtain ⟨hvalue, -⟩ := Linter.fixPasses_of_rests left hparse' (hl'.rests hl hrests)
  rw [← Nat.succ_eq_add_one, ← hleft, ← hl'.maxFixPasses] at hvalue
  exact ⟨_, Linter.fixSource_eq_ok_iff.mpr ⟨_, d, hvalue, (hl'.parse _).trans hparse, rfl⟩,
    rfl, rfl, rfl⟩

/-- One pass mends a value, and a second run finds nothing to mend. -/
theorem fixSource_fixpoint_one_pass :
    let l : Linter := ⟨Rules.Preset.recommended.rules.map fun rule => { rule }, {}, 10, true⟩
    ∃ r, (l.fixSource "<p id=a>" .safeOnly).value = .ok r ∧ r.passes = 1 ∧
      r.source = "<p id=\"a\">" ∧
      ∃ again,
        ((l.fixSource "<p id=a>" .safeOnly).linter.fixSource r.source .safeOnly).value = .ok again ∧
        again.source = r.source ∧ again.passes = 0 ∧ again.applied = 0 := by
  intro l
  have hrun : (l.fixSource "<p id=a>" .safeOnly).value.toOption.any (fun r =>
      decide (r.passes = 1 ∧ r.source = "<p id=\"a\">")) = true := by
    decide +kernel
  obtain ⟨r, hr, hfacts⟩ := exists_ok_of_any hrun
  obtain ⟨hpasses, hsource⟩ := of_decide_eq_true hfacts
  have hforgets : l.Forgets := by
    intro a ha
    obtain ⟨rule, hrule, rfl⟩ := List.mem_map.mp ha
    exact Rules.forgets_of_mem hrule
  obtain ⟨-, -, halike, hagain⟩ := fixSource_fixpoint hforgets hr
  exact ⟨r, hr, hpasses, hsource, hagain (by rw [hpasses]; decide) _ halike⟩

end TemplateLint
