import TemplateLint.Proofs.FullPass
import TemplateLint.Proofs.Reread

/-!
# One pass is enough

With the rules on tag names and on quotes, the first pass mends everything that no directive hides,
and the text that it leaves has nothing to report but what was hidden before (`fixSource_one_pass`).
-/

namespace TemplateLint

open Markup Text

theorem Offense.Alike.regraded {o o' : Offense} (h : o.Alike o') (severity : Option Severity) :
    (o.regraded severity).Alike (o'.regraded severity) :=
  ⟨h.rule, h.line, h.suppressible, h.fix⟩

/-! ## The second lint -/

namespace Linter

variable {l : Linter} {d d' : Document} {ts : List NodeId}

theorem OnlyRestyles.alike_raw (hl : l.OnlyRestyles) (h : Reread d d' ts) :
    List.Forall₂ Offense.Alike ((l.raw d).filter (Offense.spares ts)) (l.raw d') := by
  have hregraded {os os' : List Offense} (severity : Option Severity)
      (hos : List.Forall₂ Offense.Alike (os.filter (Offense.spares ts)) os') :
      List.Forall₂ Offense.Alike ((os.map (Offense.regraded severity)).filter (Offense.spares ts))
        (os'.map (Offense.regraded severity)) := by
    rw [List.filter_map, List.forall₂_map_left_iff, List.forall₂_map_right_iff]
    exact hos.imp fun _ _ ho => ho.regraded severity
  have hrules : List.Forall₂ (fun a b : ActiveRule => a = b ∧ a ∈ l.rules) l.rules l.rules :=
    List.forall₂_same.mpr fun a ha => ⟨rfl, ha⟩
  refine forall₂_filter_flatMap hrules _ ?_
  rintro a _ ⟨rfl, ha⟩
  rcases hl.rule_of_mem ha with hrule | hrule
  · rw [ActiveRule.offenses_run_plain hrule, ActiveRule.offenses_run_plain hrule]
    exact hregraded _ h.tagName_check
  · rw [ActiveRule.offenses_run_plain hrule, ActiveRule.offenses_run_plain hrule]
    exact hregraded _ h.quotedValue_check

theorem spares_iff_isSilenced (hnodup : ((l.raw d).map Offense.aim).Nodup)
    (hts : ts.map some = ((l.lint d).value.offenses.map Offense.aim).reverse)
    {o : Offense} (ho : o ∈ l.raw d) {x : NodeId} (haim : o.aim = some x) :
    o.spares ts = true ↔ o.IsSilenced d.directives := by
  have hmem : x ∈ ts ↔ ∃ o' ∈ (l.lint d).value.offenses, o'.aim = some x := by
    rw [← List.mem_map_of_injective (Option.some_injective _), hts, List.mem_reverse, List.mem_map]
  have hspares : o.spares ts = true ↔ x ∉ ts := by
    obtain ⟨target, hfix, rfl⟩ := Option.map_eq_some_iff.mp haim
    simp [Offense.spares, hfix]
  rw [hspares, hmem]
  constructor
  · intro hnot
    by_contra hshown
    exact hnot ⟨o, mem_offenses_lint.mpr ⟨ho, hshown⟩, haim⟩
  · rintro hsilenced ⟨o', ho', haim'⟩
    obtain ⟨hraw, hshown⟩ := mem_offenses_lint.mp ho'
    obtain rfl := List.inj_on_of_nodup_map hnodup hraw ho (haim'.trans haim.symm)
    exact hshown hsilenced

theorem lint_of_alike_silenced (halike : d.Alike d')
    (hraw : List.Forall₂ Offense.Alike
      ((l.raw d).filter fun o => decide (o.IsSilenced d.directives)) (l.raw d')) :
    (l.lint d').value.offenses = [] ∧
    (l.lint d').value.suppressedCount = (l.lint d).value.suppressedCount := by
  have hdirectives := alike_directives halike
  have hsilenced : ∀ o' ∈ l.raw d', o'.IsSilenced d'.directives := by
    refine forall_mem_of_forall₂ hraw (fun o ho => of_decide_eq_true (List.mem_filter.mp ho).2) ?_
    intro o o' hsame
    exact (isSilenced_iff_of_alike hdirectives hsame).mpr
  rw [value_lint, value_lint, offenses_suppress, suppressedCount_suppress, suppressedCount_suppress]
  constructor
  · rw [List.filter_eq_nil_iff.mpr fun o' ho' => by simpa using hsilenced o' ho']
    exact List.mergeSort_nil
  · rw [List.countP_eq_length.mpr fun o' ho' => decide_eq_true (hsilenced o' ho'), ← hraw.length_eq,
      List.countP_eq_length_filter]

/-! ## The first pass -/

/-- A pass over `d` mends all that is reported, and in `d'` there is nothing but what was hidden in
`d`. -/
structure Clears (l : Linter) (mode : FixMode) (d d' : Document) : Prop where
  fixable : ∀ o ∈ (l.lint d).value.offenses, o.isFixable = true
  applied : (l.pass mode d).applied = (l.lint d).value.offenses.length
  failures : (l.pass mode d).failures = []
  offenses : (l.lint d').value.offenses = []
  suppressedCount : (l.lint d').value.suppressedCount = (l.lint d).value.suppressedCount

theorem OnlyRestyles.clears (hl : l.OnlyRestyles) (hblanks : l.keepBlanks = true)
    (mode : FixMode) {ps : List Piece} (hps : Readable [] ps) (hplain : ∀ p ∈ ps, p.HasPlainName) :
    ∃ d', l.parse (l.pass mode (.ofPieces true ps)).document.print = .ok d' ∧
      l.Clears mode (.ofPieces true ps) d' := by
  have hd := holds_ofPieces ps
  have hf := (sound_ofPieces true ps).1
  have halike {ps' : List Piece} (hr : List.Forall₂ Piece.Restyled ps ps') :=
    alike_ofPieces true hr hplain
  generalize Document.ofPieces true ps = d at *
  have hnodup := nodup_aims hl hf
  have hmends {o : Offense} (ho : o ∈ (l.lint d).value.offenses) :=
    hl.mends_of_mem_raw hd hf (mem_offenses_lint.mp ho).1
  have haims : ((l.lint d).value.offenses.map Offense.aim).Nodup :=
    ((perm_offenses_lint l d).map _).nodup_iff.mpr (hnodup.sublist (List.filter_sublist.map _))
  obtain ⟨ts, hmended, hts⟩ := FixPass.mended_run hf mode haims fun o ho => hmends ho
  rw [← (forgets_of_recommended hl.mem_recommended).pass_eq] at hmended
  obtain ⟨now, htracks⟩ := hmended.tracks
  obtain ⟨ps', hrestyled, he, hreread⟩ :=
    htracks.reread hd hf hplain hmended.targets hmended.noFlags
  have hread : readPieces [] (l.pass mode d).document.print.toList = .ok ps' := by
    refine readPieces_eq_ok_iff.mpr ⟨hps.restyled hplain hrestyled, ?_⟩
    rw [Document.print, String.toList_ofList]
    exact (he.text_root htracks.forest.grounded).symm
  have hreread := hreread _ (halike hrestyled) (sound_ofPieces true ps').1 (holds_ofPieces ps')
  -- What the pass left alone is what was hidden, so all that the second lint finds is hidden too.
  have hspared : (l.raw d).filter (Offense.spares ts) = (l.raw d).filter fun o =>
      decide (o.IsSilenced d.directives) := by
    refine List.filter_congr fun o ho => ?_
    obtain ⟨t, r, hfix, -⟩ := hl.mends_of_mem_raw hd hf ho
    rw [Bool.eq_iff_iff, decide_eq_true_iff]
    exact spares_iff_isSilenced hnodup hts ho (by rw [Offense.aim, hfix, Option.map_some])
  obtain ⟨hoffenses, hcount⟩ :=
    lint_of_alike_silenced hreread.alike (hspared ▸ hl.alike_raw hreread)
  refine ⟨_, parse_of_readPieces hblanks hread, ?_, ?_, hmended.failures, hoffenses, hcount⟩
  · intro o ho
    obtain ⟨t, r, hfix, -⟩ := hmends ho
    rw [Offense.isFixable, hfix, Option.isSome_some]
  · refine hmended.applied.trans ?_
    simpa using congrArg List.length hts

/-! ## All passes -/

variable {mode : FixMode} {source : String}

theorem fixPasses_of_clean {state : Fixing} (hparse : l.parse state.source = .ok d)
    (hclean : (l.lint d).value.offenses = []) (left : Nat) :
    (l.fixPasses mode left state).value = .ok state := by
  cases left with
  | zero => rfl
  | succ left => simp [fixPasses, hparse, LintResult.fixableCount, hclean]

theorem fixSource_of_clean (hl : l.ChecksAnew) {final : Fixing}
    (hpasses : (l.fixPasses mode l.maxFixPasses { source }).value = .ok final)
    (hparse : l.parse final.source = .ok d) (hclean : (l.lint d).value.offenses = [])
    (hfailures : final.failures = []) :
    (l.fixSource source mode).value =
      .ok ⟨final.source, final.passes, final.applied, (l.lint d).value⟩ := by
  have hsort : Offense.sort ((l.lint d).value.offenses ++ final.failures) =
      (l.lint d).value.offenses := by
    rw [hclean, hfailures]
    exact List.mergeSort_nil
  refine fixSource_eq_ok_iff.mpr ⟨final, d, hpasses, hparse, ?_⟩
  rw [(alike_fixPasses l mode l.maxFixPasses { source }).value_lint hl]
  simp only [hsort]

/-- Where one pass clears a document, there is no second one. -/
theorem Clears.fixSource (h : l.Clears mode d d') (hl : l.ChecksAnew) (hmax : 1 ≤ l.maxFixPasses)
    (hparse : l.parse source = .ok d) (hparse' : l.parse (l.pass mode d).document.print = .ok d') :
    ∃ r, (l.fixSource source mode).value = .ok r ∧ r.passes ≤ 1 ∧
      r.applied = (l.lint d).value.offenses.length ∧
      r.result.offenses = [] ∧ r.result.suppressedCount = (l.lint d).value.suppressedCount := by
  let state : Fixing := { source }
  obtain ⟨left, hleft⟩ := Nat.exists_eq_add_of_le' hmax
  by_cases hclean : (l.lint d).value.offenses = []
  · have hpasses : (l.fixPasses mode l.maxFixPasses state).value = .ok state :=
      fixPasses_of_clean hparse hclean _
    exact ⟨_, fixSource_of_clean hl hpasses hparse hclean rfl, by simp [state], by
      simp [state, hclean], hclean, rfl⟩
  · have hrests : ¬ l.Rests mode state.source d := by
      rintro (hnone | hnone | hsame)
      · rw [LintResult.fixableCount, List.countP_eq_length.mpr h.fixable] at hnone
        exact hclean (List.length_eq_zero_iff.mp hnone)
      · rw [h.applied] at hnone
        exact hclean (List.length_eq_zero_iff.mp hnone)
      · -- The same text would be read as the same document.
        rw [hsame, show l.parse state.source = _ from hparse] at hparse'
        cases hparse'
        exact hclean h.offenses
    have halike := alike_lint l d
    have hnext : (l.lint d).linter.parse (l.advance mode d state).source = .ok d' := by
      rw [halike.parse]
      exact hparse'
    have hpasses : (l.fixPasses mode l.maxFixPasses state).value =
        .ok (l.advance mode d state) := by
      rw [hleft, (fixPasses_of_not_rests hparse hrests).1]
      refine fixPasses_of_clean hnext ?_ left
      rw [halike.value_lint hl]
      exact h.offenses
    have hfailures : (l.advance mode d state).failures = [] := by
      simp [advance, h.failures, state]
    exact ⟨_, fixSource_of_clean hl hpasses hparse' h.offenses hfailures, by simp [advance, state],
      by simp [advance, state, h.applied], h.offenses, h.suppressedCount⟩

end Linter

/-- The rules on tag names and quotes need at most one pass, which mends all that no directive
hides. -/
theorem fixSource_one_pass {l : Linter}
    (hrules : (l.rules.map ActiveRule.rule).Perm [Rules.tagName, Rules.quotedValue])
    (hblanks : l.keepBlanks = true) (hmax : 1 ≤ l.maxFixPasses) {source : String} {ps : List Piece}
    (hread : readPieces [] source.toList = .ok ps)
    (hplain : ∀ p ∈ ps, p.HasPlainName) (mode : FixMode) :
    ∃ first r, (l.lintSource source).value = .ok first ∧ (l.fixSource source mode).value = .ok r ∧
      r.passes ≤ 1 ∧ r.applied = first.offenses.length ∧ r.result.offenses = [] ∧
      r.result.suppressedCount = first.suppressedCount := by
  have hl : l.OnlyRestyles := hrules
  have hanew := (Linter.forgets_of_recommended hl.mem_recommended).checksAnew
  have hparse := Linter.parse_of_readPieces hblanks hread
  obtain ⟨d', hparse', hclears⟩ := hl.clears hblanks mode (readPieces_eq_ok_iff.mp hread).1 hplain
  obtain ⟨r, hr, hresult⟩ := hclears.fixSource hanew hmax hparse hparse'
  exact ⟨_, r, by rw [Linter.lintSource, hparse], hr, hresult⟩

/-- A name and a value are mended in the first line; two names in the second one stay hidden. -/
theorem fixSource_one_pass_hidden_line :
    let source := "<DIV id=a\"'>\n<P><%# herb:disable all %></DIV>"
    let l : Linter := ⟨[Rules.quotedValue, Rules.tagName].map fun rule => { rule }, {}, 1, true⟩
    ∃ ps, readPieces [] source.toList = .ok ps ∧ (∀ p ∈ ps, p.HasPlainName) ∧
      ∃ first r, (l.lintSource source).value = .ok first ∧ first.suppressedCount = 2 ∧
        (l.fixSource source .safeOnly).value = .ok r ∧ r.passes ≤ 1 ∧
        r.applied = first.offenses.length ∧
        r.result.offenses = [] ∧ r.result.suppressedCount = first.suppressedCount := by
  intro source l
  let ps : List Piece :=
    [.openTag ⟨"DIV".toList,
      [.blank [' '], .attr ⟨"id".toList, some ⟨none, [.literal "a\"'".toList]⟩⟩], false⟩,
      .text ['\n'], .openTag ⟨"P".toList, [], false⟩,
      .erb ⟨.comment, " herb:disable all ".toList, false⟩, .closeTag ⟨"DIV".toList, []⟩]
  have hread : readPieces [] source.toList = .ok ps := by decide +kernel
  have hplain : ∀ p ∈ ps, p.HasPlainName := by
    simp only [ps, List.forall_mem_cons]
    exact ⟨isPlain_of_ascii (by simp), trivial, isPlain_of_ascii (by simp), trivial,
      isPlain_of_ascii (by simp), by simp⟩
  have hcount : (l.lintSource source).value.toOption.any (·.suppressedCount == 2) =
      true := by decide +kernel
  have hrules : (l.rules.map ActiveRule.rule).Perm
      [Rules.tagName, Rules.quotedValue] := .swap _ _ []
  obtain ⟨first, r, hfirst, hr⟩ :=
    fixSource_one_pass hrules rfl (Nat.le_refl 1) hread hplain .safeOnly
  rw [hfirst] at hcount
  exact ⟨ps, hread, hplain, first, r, hfirst, by simpa [Except.toOption] using hcount, hr⟩

end TemplateLint
