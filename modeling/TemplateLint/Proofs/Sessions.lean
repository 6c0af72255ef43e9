import TemplateLint.Proofs.Isolation

/-!
# Sessions

In a session one linter is asked again and again, and its rules keep their notes from one question
to the next. Each answer is the one that the linter would have given at first (`replies_fresh`).
-/

namespace TemplateLint

/-! ## Questions and answers -/

inductive Query where
  | lint (d : Document)
  | lintSource (source : String)
  | applyFixes (d : Document) (offenses : List Offense) (mode : FixMode)
  | fixSource (source : String) (mode : FixMode)

inductive Reply where
  | lint (r : LintResult)
  | lintSource (r : Except ParseError LintResult)
  | applyFixes (p : FixPass)
  | fixSource (r : Except ParseError FixReport)

def Answer.map {α β : Type} (f : α → β) (a : Answer α) : Answer β := ⟨f a.value, a.linter, a.events⟩

namespace Linter

/-- Asks a question. Applying fixes leaves the linter as it is and has its log in the pass. -/
def ask (l : Linter) : Query → Answer Reply
  | .lint d => (l.lint d).map .lint
  | .lintSource source => (l.lintSource source).map .lintSource
  | .applyFixes d offenses mode => ⟨.applyFixes (l.applyFixes d offenses mode), l, []⟩
  | .fixSource source mode => (l.fixSource source mode).map .fixSource

/-- What the linter replies and logs, question after question. -/
def replies (l : Linter) : List Query → List (Reply × List Event)
  | [] => []
  | q :: rest => ((l.ask q).value, (l.ask q).events) :: (l.ask q).linter.replies rest

end Linter

/-! ## Answers that differ in notes only -/

/-- The same answer, from linters that differ in their notes only. -/
structure Answer.Same {α : Type} (a' a : Answer α) : Prop where
  value : a'.value = a.value
  events : a'.events = a.events
  linter : a'.linter.Alike a.linter

theorem Answer.Same.map {α β : Type} {a' a : Answer α} (h : a'.Same a) (f : α → β) :
    (a'.map f).Same (a.map f) :=
  ⟨congrArg f h.value, h.events, h.linter⟩

theorem ActiveRule.events_run_congr {a a' : ActiveRule} (hrule : a'.rule = a.rule)
    (h : a.rule.ChecksAnew) (d : Document) (directives : List Directive) (c : Context) :
    (a'.run d directives c).events = (a.run d directives c).events := by
  have hfind := find_congr hrule h d directives c
  unfold run
  rw [hrule]
  cases hf' : a'.find d directives c <;> cases hf : a.find d directives c <;>
    simp only [hf, hf', Except.map, Except.error.injEq, reduceCtorEq] at hfind ⊢
  rw [hfind]

namespace Linter

variable {l l' : Linter}

theorem Alike.lint (h : l'.Alike l) (hl : l.ChecksAnew) (d : Document) :
    (l'.lint d).Same (l.lint d) := by
  refine ⟨h.value_lint hl d, ?_, (alike_lint l' d).trans (h.trans (alike_lint l d).symm)⟩
  simp only [Linter.lint, List.flatMap_map, h.context]
  rw [List.flatMap_def, List.flatMap_def, h.map_rules]
  intro a' a ha hrule
  exact ActiveRule.events_run_congr hrule (hl a ha) d _ _

theorem Alike.lintSource (h : l'.Alike l) (hl : l.ChecksAnew) (source : String) :
    (l'.lintSource source).Same (l.lintSource source) := by
  simp only [Linter.lintSource, h.parse]
  cases l.parse source with
  | error e => exact ⟨rfl, rfl, h⟩
  | ok d => exact (h.lint hl d).map Except.ok

theorem Alike.applyFixes (h : l'.Alike l) (hl : l.Forgets) (d : Document) (offenses : List Offense)
    (mode : FixMode) : l'.applyFixes d offenses mode = l.applyFixes d offenses mode := by
  rw [Linter.applyFixes, Linter.applyFixes, h.fix? hl]

theorem Alike.fixPasses (h : l'.Alike l) (hl : l.Forgets) (mode : FixMode)
    (left : Nat) (state : Fixing) :
    (l'.fixPasses mode left state).Same (l.fixPasses mode left state) := by
  induction left generalizing l l' state with
  | zero => exact ⟨rfl, rfl, h⟩
  | succ left ih =>
    simp only [Linter.fixPasses, h.parse]
    cases l.parse state.source with
    | error e => exact ⟨rfl, rfl, h⟩
    | ok d =>
      -- The linters agree on the document, and after it on the rest of the passes.
      have hlint := h.lint hl.checksAnew d
      have hforgets := (alike_lint l d).forgets hl
      simp only [hlint.value, hlint.events, hlint.linter.applyFixes hforgets]
      split
      · exact ⟨rfl, rfl, hlint.linter⟩
      · split
        · exact ⟨rfl, rfl, hlint.linter⟩
        · have hnext := ih hlint.linter hforgets
            ⟨((l.lint d).linter.applyFixes d (l.lint d).value.offenses mode).document.print,
              state.passes + 1, state.applied +
                ((l.lint d).linter.applyFixes d (l.lint d).value.offenses mode).applied,
              ((l.lint d).linter.applyFixes d (l.lint d).value.offenses mode).failures.foldl
                addFailure state.failures⟩
          exact ⟨hnext.value, by rw [hnext.events], hnext.linter⟩

theorem Alike.fixSource (h : l'.Alike l) (hl : l.Forgets) (source : String) (mode : FixMode) :
    (l'.fixSource source mode).Same (l.fixSource source mode) := by
  have hfixing := h.fixPasses hl mode l.maxFixPasses { source }
  have hforgets := (alike_fixPasses l mode l.maxFixPasses { source }).forgets hl
  simp only [Linter.fixSource, h.maxFixPasses, h.context, hfixing.value, hfixing.events]
  cases (l.fixPasses mode l.maxFixPasses { source }).value with
  | error e => exact ⟨rfl, rfl, hfixing.linter⟩
  | ok state =>
    have hfinal := hfixing.linter.lintSource hforgets.checksAnew state.source
    simp only [hfinal.value, hfinal.events]
    cases ((l.fixPasses mode l.maxFixPasses { source }).linter.lintSource state.source).value with
    | error e => exact ⟨rfl, rfl, hfinal.linter⟩
    | ok result => exact ⟨rfl, rfl, hfinal.linter⟩

/-! ## One question and a whole session -/

theorem Alike.ask (h : l'.Alike l) (hl : l.Forgets) (q : Query) : (l'.ask q).Same (l.ask q) := by
  cases q with
  | lint d => exact (h.lint hl.checksAnew d).map _
  | lintSource source => exact (h.lintSource hl.checksAnew source).map _
  | applyFixes d offenses mode =>
    exact ⟨congrArg Reply.applyFixes (h.applyFixes hl d offenses mode), rfl, h⟩
  | fixSource source mode => exact (h.fixSource hl source mode).map _

theorem alike_ask (l : Linter) (q : Query) : (l.ask q).linter.Alike l := by
  cases q with
  | lint d => exact alike_lint l d
  | lintSource source =>
    simp only [ask, Answer.map, Linter.lintSource]
    cases l.parse source with
    | error e => exact .refl l
    | ok d => exact alike_lint l d
  | applyFixes d offenses mode => exact .refl l
  | fixSource source mode => exact alike_fixSource l source mode

theorem Alike.replies (h : l'.Alike l) (hl : l.Forgets) (queries : List Query) :
    l'.replies queries = queries.map fun q => ((l.ask q).value, (l.ask q).events) := by
  induction queries generalizing l' with
  | nil => rfl
  | cons q rest ih =>
    have hask := h.ask hl q
    rw [Linter.replies, hask.value, hask.events,
      ih (hask.linter.trans (alike_ask l q)), List.map_cons]

end Linter

/-- A linter with rules of the catalog replies to each question of a session as if it were the
first. -/
theorem replies_fresh {plan : LinterPlan} {l : Linter} (hbuild : plan.build = .ok l)
    (hrules : ∀ r ∈ plan.rules, r ∈ Rules.Preset.recommended.rules) (queries : List Query) :
    l.replies queries = queries.map fun q => ((l.ask q).value, (l.ask q).events) := by
  have hforgets : l.Forgets := by
    obtain ⟨-, -, rfl⟩ := LinterPlan.build_eq_ok_iff.mp hbuild
    intro a ha
    obtain ⟨rule, hrule, rfl⟩ := List.mem_map.mp ha
    exact Rules.forgets_of_mem (hrules rule (List.mem_filter.mp hrule).1)
  exact (Linter.Alike.refl l).replies hforgets queries

/-- An id is noted in the first text and stands in the third; the second text cannot be read. -/
theorem replies_fresh_same_id :
    let plan : LinterPlan := { rules := [Rules.uniqueId, Rules.tagName] }
    let queries : List Query :=
      [.lintSource "<p id=\"a\">", .lintSource "<p", .fixSource "<B id=\"a\">" .safeOnly,
      .lintSource "<p id=\"a\">"]
    (∀ r ∈ plan.rules, r ∈ Rules.Preset.recommended.rules) ∧ ∃ l, plan.build = .ok l ∧
      (l.ask (.lintSource "<p id=\"a\">")).linter.rules.map (·.notes.length) = [1, 0] ∧
      l.replies queries = queries.map fun q => ((l.ask q).value, (l.ask q).events) := by
  intro plan queries
  have hrules : ∀ r ∈ plan.rules, r ∈ Rules.Preset.recommended.rules := by
    intro r hr
    simp only [plan, List.mem_cons, List.not_mem_nil, or_false] at hr
    rcases hr with rfl | rfl <;> simp [Rules.Preset.rules, Rules.documentRules]
  let l : Linter :=
    ⟨[{ rule := Rules.uniqueId }, { rule := Rules.tagName }], plan.context, 10, true⟩
  have hbuild : plan.build = .ok l := by
    refine LinterPlan.build_eq_ok_iff.mpr
      ⟨by decide, LinterPlan.firstUnknown_eq_none_iff.mpr ?_, rfl⟩
    intro name hname
    cases hname
  exact ⟨hrules, l, hbuild, by decide +kernel, replies_fresh hbuild hrules queries⟩

end TemplateLint
