import TemplateLint.Proofs.Reports
import TemplateLint.Proofs.Suppression

/-!
# Fixing keeps templates readable

A pass prints what its fixes left of a document, and the next pass reads that text. Two things can
go wrong. The quoted value of a boolean attribute may have kept its name apart from an equals sign.
A tag name with letters beyond ASCII may match another one only when both are in lowercase. Main
statement: if neither stands in the template, fixing comes to its end (`fixSource_unbroken`).
-/

namespace TemplateLint

open Markup Text

/-! ## Rules by name -/

theorem Rules.eq_of_name_eq {r r' : Rule} (h : r ∈ Preset.recommended.rules)
    (h' : r' ∈ Preset.recommended.rules) (hname : r.name = r'.name) : r = r' := by
  have hnodup : (Preset.recommended.rules.map Rule.name).Nodup := by decide
  exact List.inj_on_of_nodup_map hnodup h h' hname

namespace Linter

variable {l : Linter} {d : Document} {ps : List Piece} {mode : FixMode}

theorem exists_of_fix? {name : String} {fix : NodeId → Edit Bool} (h : l.fix? name = some fix) :
    ∃ a ∈ l.rules, ∃ r, a.rule = .document r ∧ r.descriptor.name = name ∧
      fix = (r.fix · a.notes) := by
  obtain ⟨a, ha, hfix⟩ := List.exists_of_findSome?_eq_some h
  refine ⟨a, ha, ?_⟩
  unfold ActiveRule.fix? at hfix
  split at hfix
  · rename_i r hrule
    split at hfix
    · rename_i hname
      exact ⟨r, hrule, hname, (Option.some.inj hfix).symm⟩
    · cases hfix
  · cases hfix

theorem mem_find_of_mem_raw {o : Offense} (ho : o ∈ l.raw d) {target : FixTarget}
    (hfix : o.fix = some target) :
    ∃ a ∈ l.rules, ∃ found notes, a.find d d.directives l.context = .ok (found, notes) ∧
      ∃ o' ∈ found, o'.rule = o.rule ∧ o'.fix = o.fix := by
  obtain ⟨a, ha, ho⟩ := List.mem_flatMap.mp ho
  refine ⟨a, ha, ?_⟩
  unfold ActiveRule.run at ho
  cases hfind : a.find d d.directives l.context with
  | error crash =>
    simp only [hfind, List.mem_singleton] at ho
    simp [ho, Offense.ofFailure] at hfix
  | ok result =>
    obtain ⟨found, notes⟩ := result
    simp only [hfind] at ho
    refine ⟨found, notes, rfl, ?_⟩
    split at ho
    · obtain ⟨o', ho', rfl⟩ := List.mem_map.mp ho
      exact ⟨o', ho', rfl, rfl⟩
    · exact ⟨o, ho, rfl, rfl⟩

theorem perm_offenses_lint (l : Linter) (d : Document) :
    (l.lint d).value.offenses.Perm
      ((l.raw d).filter fun o => decide (¬ o.IsSilenced d.directives)) := by
  rw [value_lint, offenses_suppress]
  exact (Offense.stablySorted_sort _).perm

theorem mem_offenses_lint {o : Offense} :
    o ∈ (l.lint d).value.offenses ↔ o ∈ l.raw d ∧ ¬ o.IsSilenced d.directives := by
  rw [(perm_offenses_lint l d).mem_iff, List.mem_filter, decide_eq_true_iff]

theorem amends_of_mem_raw (hrules : ∀ a ∈ l.rules, a.rule ∈ Rules.Preset.recommended.rules)
    (h : d.Holds ps) (hf : d.Forest [d.root]) {o : Offense} (ho : o ∈ l.raw d) {target : FixTarget}
    (hfix : o.fix = some target) {fix : NodeId → Edit Bool} (hfound : l.fix? o.rule = some fix) :
    Amends fix d target.node := by
  obtain ⟨a, ha, found, notes, hfind, o', ho', hrule, hfix'⟩ := mem_find_of_mem_raw ho hfix
  obtain ⟨r', har', hname', hamends⟩ :=
    Rules.amends_of_mem_find h hf (hrules a ha) hfind ho' (hfix'.trans hfix)
  obtain ⟨b, hb, r, hbr, hname, rfl⟩ := exists_of_fix? hfound
  have hsame : Rule.document r = .document r' := by
    apply Rules.eq_of_name_eq (hbr ▸ hrules b hb) (har' ▸ hrules a ha)
    exact hname.trans (hrule.symm.trans hname')
  cases hsame
  exact hamends b.notes

end Linter

/-! ## One pass -/

namespace FixPass

variable {d : Document} {find : String → Option (NodeId → Edit Bool)} {mode : FixMode}

theorem document_record (p : FixPass) (o : Offense) (t : NodeId)
    (r : EStateM.Result FixFailure Document Bool) :
    (p.record o t (.ofRun r)).document = p.document ∨
      r = .ok true (p.record o t (.ofRun r)).document := by
  unfold Attempt.ofRun
  split
  · exact Or.inr rfl
  all_goals exact Or.inl rfl

theorem amended_step {p : FixPass} (hp : d.Amended p.document) {o : Offense}
    (ho : ∀ target fix, o.fix = some target → find o.rule = some fix → Amends fix d target.node) :
    d.Amended (p.step find mode o).document := by
  unfold step
  split
  · exact hp
  · rename_i target hfix
    split
    · exact hp
    · split
      · exact hp
      · rename_i fix hfound
        rcases document_record p o target.node ((fix target.node).run p.document) with
          hsame | hchanged
        · rwa [hsame]
        · exact ho target fix hfix hfound _ _ hp hchanged

theorem amended_run {offenses : List Offense} (hf : d.Forest [d.root])
    (ho : ∀ o ∈ offenses, ∀ target fix, o.fix = some target → find o.rule = some fix →
      Amends fix d target.node) : d.Amended (run find mode d offenses).document := by
  have hfold (p : FixPass) (hp : d.Amended p.document) :
      d.Amended (offenses.foldl (step find mode) p).document := by
    induction offenses generalizing p with
    | nil => exact hp
    | cons o rest ih =>
      rw [List.forall_mem_cons] at ho
      exact ih ho.2 _ (amended_step hp ho.1)
  exact hfold { document := d } ⟨[], _, id, by simp [Document.Targets], .refl hf⟩

end FixPass

/-! ## Sturdy texts -/

/-- The text can be read, and its markup stays readable under all fixes. -/
def IsSturdy (source : String) : Prop := ∃ ps, readPieces [] source.toList = .ok ps ∧ Sturdy [] ps

/-- What is left of sturdy markup can be read again, and is sturdy. -/
theorem Document.Amended.isSturdy {d e : Document} {ps : List Piece}
    (h : d.Amended e) (hd : d.Holds ps) (hf : d.Forest [d.root]) (hps : Sturdy [] ps) :
    IsSturdy e.print := by
  obtain ⟨ts, present, now, hts, htracks⟩ := h
  obtain ⟨children, hroot, leaves, hleaves, hpieces⟩ := hd
  obtain ⟨ps₁, ps', hrestyled, hbared, -, -, he⟩ := htracks.holds hf hts hroot hleaves hpieces
  have hsturdy := (hps.restyled hrestyled).bared hbared
  refine ⟨ps'.map Piece.fused, readPieces_eq_ok_iff.mpr ⟨hsturdy.readable, ?_⟩, hsturdy⟩
  rw [Document.print, String.toList_ofList, he.text_root htracks.forest.grounded, List.flatMap_map]
  exact List.flatMap_congr fun p _ => p.source_fused

namespace Linter

variable {l : Linter} {source : String} {mode : FixMode} {state : Fixing} {left : Nat}

theorem forgets_of_recommended
    (hrules : ∀ a ∈ l.rules, a.rule ∈ Rules.Preset.recommended.rules) : l.Forgets :=
  fun a ha => Rules.forgets_of_mem (hrules a ha)

theorem isSturdy_pass (hrules : ∀ a ∈ l.rules, a.rule ∈ Rules.Preset.recommended.rules)
    {ps : List Piece} (hps : Sturdy [] ps) :
    IsSturdy (l.pass mode (.ofPieces true ps)).document.print := by
  have hd := holds_ofPieces ps
  have hf := (sound_ofPieces true ps).1
  refine Document.Amended.isSturdy ?_ hd hf hps
  rw [(forgets_of_recommended hrules).pass_eq]
  refine FixPass.amended_run hf fun o ho target fix hfix hfound => ?_
  exact amends_of_mem_raw hrules hd hf (mem_offenses_lint.mp ho).1 hfix hfound

theorem parse_of_readPieces (hblanks : l.keepBlanks = true) {ps : List Piece}
    (h : readPieces [] source.toList = .ok ps) : l.parse source = .ok (.ofPieces true ps) := by
  rw [Linter.parse, hblanks, Document.parse, h]

theorem parse_of_isSturdy (hblanks : l.keepBlanks = true) (h : IsSturdy source) :
    ∃ ps, Sturdy [] ps ∧ l.parse source = .ok (.ofPieces true ps) := by
  obtain ⟨ps, hread, hps⟩ := h
  exact ⟨ps, hps, parse_of_readPieces hblanks hread⟩

theorem fixPasses_of_isSturdy (hrules : ∀ a ∈ l.rules, a.rule ∈ Rules.Preset.recommended.rules)
    (hblanks : l.keepBlanks = true) (mode : FixMode) (left : Nat) (h : IsSturdy state.source) :
    ∃ final, (l.fixPasses mode left state).value = .ok final ∧ IsSturdy final.source := by
  induction left generalizing l state with
  | zero => exact ⟨state, rfl, h⟩
  | succ left ih =>
    obtain ⟨ps, hps, hparse⟩ := parse_of_isSturdy hblanks h
    by_cases hrests : l.Rests mode state.source (.ofPieces true ps)
    · obtain ⟨hvalue, -⟩ := fixPasses_of_rests left hparse hrests
      exact ⟨_, hvalue, h⟩
    · rw [(fixPasses_of_not_rests hparse hrests).1]
      have halike := alike_lint l (.ofPieces true ps)
      exact ih (halike.forall_rules (p := (· ∈ Rules.Preset.recommended.rules)) hrules)
        (halike.keepBlanks.trans hblanks) (isSturdy_pass hrules hps)

end Linter

theorem LinterPlan.of_build {plan : LinterPlan} {l : Linter} (h : plan.build = .ok l) :
    l.rules = plan.enabledRules.map (fun rule => { rule }) ∧ l.keepBlanks = plan.keepBlanks := by
  unfold build at h
  split at h
  · simp at h
  · split at h
    · simp at h
    · obtain rfl := Except.ok.inj h
      exact ⟨rfl, rfl⟩

/-- Fixing by the recommended rules comes to an end, and what it leaves can be read too. -/
theorem fixSource_unbroken {plan : LinterPlan}
    (hrules : plan.rules = Rules.Preset.recommended.rules) (hblanks : plan.keepBlanks = true)
    {l : Linter} (hbuild : plan.build = .ok l) {source : String} {ps : List Piece}
    (hread : readPieces [] source.toList = .ok ps) (hplain : ∀ p ∈ ps, p.HasPlainName)
    (hdetached : ∀ p ∈ ps, p.IsDetached) (mode : FixMode) :
    ∃ r, (l.fixSource source mode).value = .ok r ∧ ∃ d, l.parse r.source = .ok d := by
  obtain ⟨hactive, hkeep⟩ := LinterPlan.of_build hbuild
  have hcatalog : ∀ a ∈ l.rules, a.rule ∈ Rules.Preset.recommended.rules := by
    rw [hactive, ← hrules]
    intro a ha
    obtain ⟨rule, hrule, rfl⟩ := List.mem_map.mp ha
    exact (List.mem_filter.mp hrule).1
  have hsturdy : IsSturdy source :=
    ⟨ps, hread, (readPieces_eq_ok_iff.mp hread).1, hplain, hdetached⟩
  let state : Fixing := { source }
  obtain ⟨final, hpasses, hfinal⟩ :=
    Linter.fixPasses_of_isSturdy hcatalog (hkeep.trans hblanks) mode l.maxFixPasses
      (show IsSturdy state.source from hsturdy)
  obtain ⟨ps', -, hparse⟩ := Linter.parse_of_isSturdy (hkeep.trans hblanks) hfinal
  exact ⟨_, Linter.fixSource_eq_ok_iff.mpr ⟨final, _, hpasses, hparse, rfl⟩, _, hparse⟩

def recommendedPlan : LinterPlan := { rules := Rules.Preset.recommended.rules }

def recommendedLinter : Linter :=
  ⟨Rules.Preset.recommended.rules.map fun rule => { rule }, recommendedPlan.context, 10, true⟩

theorem build_recommendedPlan : recommendedPlan.build = .ok recommendedLinter := by
  have hclash : firstClash [] recommendedPlan.names = none := by decide
  have hunknown : recommendedPlan.firstUnknown = none := by
    have hempty : sortNames (recommendedPlan.settings.rules.map (·.1)) = [] := by
      simp [recommendedPlan, sortNames, List.eraseReps, List.eraseRepsBy]
    rw [LinterPlan.firstUnknown, hempty, List.find?_nil]
  rw [LinterPlan.build, hclash]
  simp only [hunknown]
  rfl

/-- Both tags get small names, a value is escaped, and another one goes. -/
theorem fixSource_unbroken_all_fixes :
    ∃ ps, readPieces [] "<SCRIPT CHECKED=\"x\" id=a\"b'c=d></Script>".toList = .ok ps ∧
      (∀ p ∈ ps, p.HasPlainName) ∧ (∀ p ∈ ps, p.IsDetached) ∧
      ∃ l, recommendedPlan.build = .ok l ∧
        ∃ r, (l.fixSource "<SCRIPT CHECKED=\"x\" id=a\"b'c=d></Script>" .all).value = .ok r ∧
          ∃ d, l.parse r.source = .ok d := by
  let ps : List Piece :=
    [.openTag ⟨"SCRIPT".toList,
      [.blank [' '], .attr ⟨"CHECKED".toList, some ⟨some .double, [.literal ['x']]⟩⟩,
        .blank [' '], .attr ⟨"id".toList, some ⟨none, [.literal "a\"b'c=d".toList]⟩⟩], false⟩,
      .closeTag ⟨"Script".toList, []⟩]
  have hread : readPieces [] "<SCRIPT CHECKED=\"x\" id=a\"b'c=d></Script>".toList =
      .ok ps := by decide +kernel
  have hplain : ∀ p ∈ ps, p.HasPlainName := by
    simp only [ps, List.forall_mem_cons]
    exact ⟨isPlain_of_ascii (by simp), isPlain_of_ascii (by simp), by simp⟩
  have hdetached : ∀ p ∈ ps, p.IsDetached := by
    simp only [ps, List.forall_mem_cons]
    exact ⟨by simp [Piece.IsDetached, Detached, TagPart.text, TagPart.isQuotedFlag],
      trivial, by simp⟩
  exact ⟨ps, hread, hplain, hdetached, recommendedLinter, build_recommendedPlan,
    fixSource_unbroken rfl rfl build_recommendedPlan hread hplain hdetached .all⟩

/-- Two templates that can be read until they are fixed. -/
theorem fixSource_breaks :
    ∃ l, recommendedPlan.build = .ok l ∧
      ((∃ d, l.parse "<input checked=\"x\"=\">" = .ok d) ∧
        ∃ e, (l.fixSource "<input checked=\"x\"=\">" .safeOnly).value = .error e) ∧
      (∃ d, l.parse "<scriptk><script></script\u212a><a" = .ok d) ∧
        ∃ e, (l.fixSource "<scriptk><script></script\u212a><a" .safeOnly).value = .error e := by
  have hok {source : String} (h : (recommendedLinter.parse source).toOption.any fun _ => true) :
      ∃ d, recommendedLinter.parse source = .ok d := by
    obtain ⟨d, hd, -⟩ := exists_ok_of_any h
    exact ⟨d, hd⟩
  have hfails {source : String}
      (h : (recommendedLinter.fixSource source .safeOnly).value.toOption.isNone) :
      ∃ e, (recommendedLinter.fixSource source .safeOnly).value = .error e := by
    cases hvalue : (recommendedLinter.fixSource source .safeOnly).value with
    | error e => exact ⟨e, rfl⟩
    | ok r => simp [hvalue, Except.toOption] at h
  -- Without its value the attribute meets an equals sign and gets the rest of the tag for a value.
  -- The close tag with a Kelvin sign comes to go with `<scriptk>`, and the script ends before `<a`.
  exact ⟨recommendedLinter, build_recommendedPlan,
    ⟨hok (by decide +kernel), hfails (by decide +kernel)⟩, hok (by decide +kernel),
    hfails (by decide +kernel)⟩

end TemplateLint
