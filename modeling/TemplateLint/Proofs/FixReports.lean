import TemplateLint.Proofs.Passes
import TemplateLint.Proofs.Suppression

/-!
# Reports on fixing

Fixing goes from text to text, one pass after the other, and reports on the whole way. What went
wrong on it is told once for each rule and message and is never hidden (`fixSource_failures`). The
flag for a change tells that some pass changed the text. That is right unless later passes lead back
to where the first one began (`changed_iff`).
-/

namespace TemplateLint

/-! ## The first of each kind -/

namespace Offense

/-- What makes two failures the same one. -/
def kind (o : Offense) : String × String := (o.rule, o.message)

def firstOfEach : List Offense → List Offense
  | [] => []
  | o :: rest => o :: (firstOfEach rest).filter (·.kind ≠ o.kind)

theorem mem_firstOfEach {all : List Offense} {o : Offense} :
    o ∈ firstOfEach all ↔ all.find? (·.kind = o.kind) = some o := by
  induction all with
  | nil => simp [firstOfEach]
  | cons first rest ih =>
    rw [firstOfEach, List.mem_cons, List.mem_filter, ih, List.find?_cons]
    by_cases hkind : first.kind = o.kind
    · simp [hkind, eq_comm]
    · have hne : o ≠ first := fun heq => hkind (by rw [heq])
      simp [hkind, hne, Ne.symm hkind]

theorem nodup_firstOfEach (all : List Offense) : ((firstOfEach all).map kind).Nodup := by
  induction all with
  | nil => exact List.nodup_nil
  | cons first rest ih =>
    rw [firstOfEach, List.map_cons, List.nodup_cons]
    refine ⟨by simp, ih.sublist (List.filter_sublist.map _)⟩

theorem addFailure_eq (failures : List Offense) (new : Offense) :
    addFailure failures new = failures ++ if new.kind ∈ failures.map kind then [] else [new] := by
  have hany : failures.any (fun o => o.rule == new.rule && o.message == new.message) = true ↔
      new.kind ∈ failures.map kind := by
    simp [kind]
  by_cases hmem : new.kind ∈ failures.map kind
  · rw [addFailure, if_pos (hany.mpr hmem), if_pos hmem, List.append_nil]
  · rw [addFailure, if_neg (mt hany.mp hmem), if_neg hmem]

theorem foldl_addFailure (failures new : List Offense) :
    new.foldl addFailure failures =
      failures ++ (firstOfEach new).filter (·.kind ∉ failures.map kind) := by
  induction new generalizing failures with
  | nil => simp [firstOfEach]
  | cons first rest ih =>
    rw [List.foldl_cons, ih, addFailure_eq, firstOfEach, List.filter_cons, List.filter_filter]
    by_cases hmem : first.kind ∈ failures.map kind
    · have hold (o : Offense) : (o.kind ∉ failures.map kind ∧ o.kind ≠ first.kind) ↔
          o.kind ∉ failures.map kind :=
        and_iff_left_of_imp fun hnot heq => hnot (heq ▸ hmem)
      simp only [hmem, if_true, List.append_nil, not_true_eq_false, decide_false,
        Bool.false_eq_true, if_false, ← Bool.decide_and, hold]
    · have hnew (o : Offense) : o.kind ∉ (failures ++ [first]).map kind ↔
          o.kind ∉ failures.map kind ∧ o.kind ≠ first.kind := by
        simp
      simp only [hmem, if_false, not_false_eq_true, decide_true, if_true, List.append_assoc,
        List.singleton_append, ← Bool.decide_and, hnew]

theorem stem_ofFailure (rule : String) (location : Location) (detail : String) :
    internalErrorStem.toList <+: (ofFailure rule location detail).message.toList := by
  have hmessage : (ofFailure rule location detail).message =
      internalErrorStem ++ " " ++ detail := rfl
  simp [hmessage]

theorem mem_suppress_ofFailure {rule : String} {location : Location}
    {detail : String} {raw : List Offense} (directives : List Directive) (c : Context)
    (h : ofFailure rule location detail ∈ raw) :
    ofFailure rule location detail ∈ (suppress raw directives c).offenses := by
  have hstem := List.isPrefixOf_iff_prefix.mpr (stem_ofFailure rule location detail)
  rw [offenses_suppress, sort, List.mem_mergeSort, List.mem_filter]
  refine ⟨h, ?_⟩
  simp [IsSilenced, isSuppressible, hstem]

end Offense

/-! ## The texts on the way -/

namespace Linter

variable {l l' : Linter} {mode : FixMode} {source : String} {d : Document} {left : Nat}
  {state final : Fixing}

/-- The linter after a pass over a text and the text that it leaves, if it changes it. -/
def next? (l : Linter) (mode : FixMode) (source : String) : Option (Linter × String) :=
  match l.parse source with
  | .error _ => none
  | .ok d =>
    let pass := l.pass mode d
    if pass.applied = 0 ∨ pass.document.print = source then none
    else some ((l.lint d).linter, pass.document.print)

/-- The linter and the text after `n` passes, if each of them changes the text. -/
def after (l : Linter) (mode : FixMode) : (n : Nat) → String → Option (Linter × String)
  | 0, source => some (l, source)
  | n + 1, source => (l.next? mode source).bind fun s => s.1.after mode n s.2

def textAfter (l : Linter) (mode : FixMode) (n : Nat) (source : String) : Option String :=
  (l.after mode n source).map (·.2)

/-- What goes wrong in the passes over a text, at most `left` of them. -/
def faultsWithin (l : Linter) (mode : FixMode) (left : Nat) (source : String) : List Offense :=
  ((List.range left).filterMap (l.after mode · source)).flatMap fun s =>
    ((s.1.parse s.2).toOption.map (s.1.faults mode)).getD []

theorem next?_of_rests (hparse : l.parse source = .ok d) (hrests : l.Rests mode source d) :
    l.next? mode source = none := by
  simp [next?, hparse, rests_iff.mp hrests]

theorem next?_of_not_rests (hparse : l.parse source = .ok d) (hrests : ¬ l.Rests mode source d) :
    l.next? mode source = some ((l.lint d).linter, (l.pass mode d).document.print) := by
  simp only [next?, hparse]
  exact if_neg fun hstop => hrests (rests_iff.mpr hstop)

theorem faultsWithin_succ (hparse : l.parse source = .ok d) :
    l.faultsWithin mode (left + 1) source = l.faults mode d ++
      ((l.next? mode source).map fun s => s.1.faultsWithin mode left s.2).getD [] := by
  have hhere : ((l.parse source).toOption.map (l.faults mode)).getD [] = l.faults mode d := by
    rw [hparse]
    rfl
  rw [faultsWithin, List.range_succ_eq_map, List.filterMap_cons, after, List.flatMap_cons, hhere,
    List.filterMap_map]
  cases hnext : l.next? mode source with
  | none => simp [Function.comp_def, after, hnext]
  | some s => simp [Function.comp_def, after, hnext, faultsWithin]

theorem alike_after {n : Nat} {text : String} (h : l.after mode n source = some (l', text)) :
    l'.Alike l := by
  induction n generalizing l source with
  | zero =>
    cases h
    exact .refl _
  | succ n ih =>
    obtain ⟨⟨next, print⟩, hnext, h⟩ := Option.bind_eq_some_iff.mp h
    cases hparse : l.parse source with
    | error e => simp [next?, hparse] at hnext
    | ok d =>
      by_cases hrests : l.Rests mode source d
      · simp [next?_of_rests hparse hrests] at hnext
      · rw [next?_of_not_rests hparse hrests] at hnext
        cases hnext
        exact (ih h).trans (alike_lint l d)

theorem Alike.next?_eq_none (h : l'.Alike l) (hl : l.Forgets)
    (hnone : l'.next? mode source = none) : l.next? mode source = none := by
  rw [next?, h.parse] at hnone
  rw [next?]
  cases hparse : l.parse source with
  | error e => rfl
  | ok d =>
    simp only [hparse, h.pass hl] at hnone
    simpa using hnone

/-- Fixing stands at the text after the passes it counts, where the next one rests unless the cap
stopped it. -/
theorem Leads.exists_after (h : Leads mode l left state final) :
    ∃ n ≤ left, final.passes = state.passes + n ∧
      ∃ l', l.after mode n state.source = some (l', final.source) ∧
        (n < left → l'.next? mode final.source = none) := by
  induction h with
  | cap l state => exact ⟨0, le_rfl, rfl, l, rfl, by simp⟩
  | @rest l left state d hparse hrests =>
    exact ⟨0, Nat.zero_le _, rfl, l, rfl, fun _ => next?_of_rests hparse hrests⟩
  | @pass l left state final d hparse hrests hnext ih =>
    obtain ⟨n, hle, hpasses, l', htext, hstop⟩ := ih
    refine ⟨n + 1, by omega, ?_, l', ?_, fun hlt => hstop (by omega)⟩
    · rw [hpasses, advance, Nat.add_assoc, Nat.add_comm 1]
    · rw [after, next?_of_not_rests hparse hrests]
      exact htext

theorem eq_ofFailure_of_mem_faultsWithin {o : Offense} (h : o ∈ l.faultsWithin mode left source) :
    ∃ rule location detail, o = .ofFailure rule location detail := by
  obtain ⟨⟨l', text⟩, -, ho⟩ := List.mem_flatMap.mp h
  cases hparse : l'.parse text with
  | error e => simp [hparse, Except.toOption] at ho
  | ok d =>
    simp only [hparse] at ho
    obtain ⟨⟨offense, r⟩, -, ho⟩ := List.mem_filterMap.mp ho
    obtain ⟨detail, -, rfl⟩ := Option.map_eq_some_iff.mp ho
    exact ⟨_, _, _, (Offense.ofFailure_eq _ _ _).symm⟩

theorem Leads.failures (h : Leads mode l left state final) :
    final.failures = (l.faultsWithin mode left state.source).foldl addFailure state.failures := by
  induction h with
  | cap l state => rfl
  | rest hparse hrests => simp [faultsWithin_succ hparse, next?_of_rests hparse hrests]
  | @pass l left state final d hparse hrests hnext ih =>
    rw [ih, faultsWithin_succ hparse, next?_of_not_rests hparse hrests, List.foldl_append,
      ← failures_pass]
    rfl

end Linter

/-! ## Failures -/

/-- Fixing reports what linting the fixed text reports, and the first failure of each rule and
message. -/
theorem fixSource_failures {l : Linter} (hl : l.ChecksAnew) {source : String}
    {mode : FixMode} {r : FixReport} (h : (l.fixSource source mode).value = .ok r) :
    let faults := l.faultsWithin mode l.maxFixPasses source
    let failures := Offense.firstOfEach faults
    ∃ result, (l.lintSource r.source).value = .ok result ∧
      r.result.unnecessaryDirectives = result.unnecessaryDirectives ∧
      r.result.suppressedCount = result.suppressedCount ∧
      Offense.StablySorted (result.offenses ++ failures) r.result.offenses ∧
      (failures.map Offense.kind).Nodup ∧
      (∀ o, o ∈ failures ↔ faults.find? (·.kind = o.kind) = some o) ∧
      ∀ o ∈ failures, internalErrorStem.toList <+: o.message.toList ∧
        o.severity = .error ∧ o.fix = none ∧
        ∀ raw directives c, o ∈ raw → o ∈ (suppress raw directives c).offenses := by
  intro faults failures
  obtain ⟨final, d, hpasses, hparse, rfl⟩ := Linter.fixSource_eq_ok_iff.mp h
  have halike := l.alike_fixPasses mode l.maxFixPasses { source }
  have hfailures : final.failures = failures := by
    rw [(Linter.leads_fixPasses hpasses).failures, Offense.foldl_addFailure]
    simp [failures, faults]
  refine ⟨(l.lint d).value, ?_, ?_, ?_, ?_, Offense.nodup_firstOfEach _,
    fun _ => Offense.mem_firstOfEach, ?_⟩
  · simp [Linter.lintSource, hparse]
  · rw [halike.value_lint hl]
  · rw [halike.value_lint hl]
  · rw [halike.value_lint hl, hfailures]
    exact Offense.stablySorted_sort _
  · intro o ho
    have hfault : o ∈ faults := List.mem_of_find?_eq_some (Offense.mem_firstOfEach.mp ho)
    obtain ⟨rule, location, detail, rfl⟩ := Linter.eq_ofFailure_of_mem_faultsWithin hfault
    exact ⟨Offense.stem_ofFailure _ _ _, rfl, rfl,
      fun raw directives c => Offense.mem_suppress_ofFailure directives c⟩

/-- A rule that notes the literals it finds wrong and mends each of them by another text. -/
def literalRule (name : String) (isWrong : String → Bool)
    (mend : List Note → String → Edit String) : Rule :=
  let descriptor : Descriptor := { name, description := "", hasSafeFix := true }
  .document
    { descriptor
      reset := fun _ => []
      check := fun d _ _ =>
        let wrong : List (NodeId × Note) := d.allVisits.filterMap fun v =>
          match v.node.content with
          | .literal t => if isWrong t.text then some (v.id, ⟨t.text, v.node.location⟩) else none
          | _ => none
        .ok (wrong.map fun w => descriptor.fixable "wrong" w.2.location w.1, wrong.map (·.2))
      fix := fun id notes => do
        let node ← Edit.node id
        match node.content with
        | .literal t =>
          let text ← mend notes t.text
          let _ ← Edit.replace id { node with content := .literal { t with text } }
          return true
        | _ => return false }

theorem checksAnew_literalRule (name : String) (isWrong : String → Bool)
    (mend : List Note → String → Edit String) : (literalRule name isWrong mend).ChecksAnew :=
  fun _ _ _ _ => rfl

theorem fixesAnew_literalRule (name : String) (isWrong : String → Bool)
    (mend : String → Edit String) : (literalRule name isWrong fun _ => mend).FixesAnew :=
  fun _ _ _ => rfl

/-- A rule crashes at two literals, which is told once, and another one asks too much of the
tree. -/
theorem fixSource_failures_crash_and_error :
    let stuck := literalRule "stuck" (fun _ => true) fun notes _ =>
      throw (.crash ⟨notes.head?.map (·.text)⟩)
    let rooted := literalRule "rooted" (· = "y") fun _ _ => do
      let root := (← get).root
      let _ ← Edit.replace root (← Edit.node root)
      return ""
    let l : Linter := ⟨[{ rule := stuck }, { rule := rooted }], {}, 10, true⟩
    let crash (column : Nat) : Offense :=
      ⟨"stuck", "internal error: autofix panicked: x", .error, ⟨⟨1, column⟩, ⟨1, column + 1⟩⟩, none⟩
    let error : Offense := ⟨"rooted",
      "internal error: autofix failed: the document root cannot be replaced", .error,
      ⟨⟨1, 9⟩, ⟨1, 10⟩⟩, none⟩
    l.ChecksAnew ∧
      l.faultsWithin .safeOnly l.maxFixPasses "<p a=x b=y>" = [crash 5, crash 9, error] ∧
      ∃ r result, (l.fixSource "<p a=x b=y>" .safeOnly).value = .ok r ∧
        (l.lintSource r.source).value = .ok result ∧
        Offense.StablySorted (result.offenses ++ [crash 5, error]) r.result.offenses := by
  intro stuck rooted l crash error
  have hstuck : stuck.ChecksAnew := checksAnew_literalRule _ _ _
  have hrooted : rooted.ChecksAnew := checksAnew_literalRule _ _ _
  have hanew : l.ChecksAnew :=
    List.forall_mem_cons.mpr ⟨hstuck, List.forall_mem_singleton.mpr hrooted⟩
  have hlint : (l.parse "<p a=x b=y>").toOption.any (fun d =>
      let offenses := (l.raw d).filter fun o => decide (¬ o.IsSilenced d.directives)
      let pass := (l.lint d).linter.applyFixes d offenses .safeOnly
      decide (offenses.Pairwise (fun a b => a.startsBefore b = true) ∧ pass.applied = 0 ∧
        pass.failures = [crash 5, crash 9, error])) = true := by
    decide +kernel
  obtain ⟨d, hparse, hfacts⟩ := exists_ok_of_any hlint
  obtain ⟨hsorted, happlied, hfailures⟩ := of_decide_eq_true hfacts
  -- The offenses are in order as they are found, so the pass goes over them as they are.
  have hoffenses : (l.lint d).value.offenses =
      (l.raw d).filter fun o => decide (¬ o.IsSilenced d.directives) := by
    rw [Linter.value_lint, offenses_suppress, Offense.sort, List.mergeSort_of_pairwise hsorted]
  rw [← hoffenses, Linter.applyFixes_lint] at happlied hfailures
  have hrests : l.Rests .safeOnly "<p a=x b=y>" d := Or.inr (Or.inl happlied)
  have hfaults : l.faultsWithin .safeOnly l.maxFixPasses "<p a=x b=y>" =
      [crash 5, crash 9, error] := by
    rw [Linter.faultsWithin_succ hparse, Linter.next?_of_rests hparse hrests,
      ← Linter.failures_pass, hfailures]
    rfl
  have hvalue : (l.fixPasses .safeOnly l.maxFixPasses { source := "<p a=x b=y>" }).value = .ok _ :=
    (Linter.fixPasses_of_rests 9 hparse hrests).1
  obtain ⟨r, hr⟩ : ∃ r, (l.fixSource "<p a=x b=y>" .safeOnly).value = .ok r :=
    ⟨_, Linter.fixSource_eq_ok_iff.mpr ⟨_, d, hvalue, hparse, rfl⟩⟩
  obtain ⟨result, hresult, -, -, hsorted, -⟩ := fixSource_failures hanew hr
  have hkept : Offense.firstOfEach [crash 5, crash 9, error] = [crash 5, error] := by
    decide +kernel
  rw [hfaults, hkept] at hsorted
  exact ⟨hanew, hfaults, r, result, hr, hresult, hsorted⟩

/-! ## The flag for a change -/

/-- What the counts of passes and fixes tell of the way from one state to another. -/
structure Fixing.Progress (state final : Fixing) : Prop where
  passes_le : state.passes ≤ final.passes
  unchanged : final.passes = state.passes → final.source = state.source ∧
    final.applied = state.applied
  changed : final.passes = state.passes + 1 → final.source ≠ state.source
  applied_lt : state.passes < final.passes → state.applied < final.applied

namespace Linter

variable {l : Linter} {mode : FixMode} {source : String} {left : Nat} {state final : Fixing}

theorem Leads.progress (h : Leads mode l left state final) : state.Progress final := by
  induction h with
  | cap l state => exact ⟨le_rfl, fun _ => ⟨rfl, rfl⟩, by simp, by simp⟩
  | rest hparse hrests => exact ⟨le_rfl, fun _ => ⟨rfl, rfl⟩, by simp, by simp⟩
  | @pass l left state final d hparse hrests hnext ih =>
    obtain ⟨happlied, hprint⟩ := not_or.mp (mt rests_iff.mpr hrests)
    have hle : state.passes + 1 ≤ final.passes := ih.passes_le
    refine ⟨by omega, fun heq => by omega, fun heq => ?_, fun _ => ?_⟩
    · rw [(ih.unchanged heq).1]
      exact hprint
    · have hmore : state.applied + (l.pass mode d).applied ≤ final.applied := by
        rcases hle.eq_or_lt with heq | hlt
        · exact (ih.unchanged heq.symm).2.ge
        · exact (ih.applied_lt hlt).le
      omega

theorem after_add (n m : Nat) (source : String) :
    l.after mode (n + m) source =
      (l.after mode n source).bind fun s => s.1.after mode m s.2 := by
  induction n generalizing l source with
  | zero => simp [after]
  | succ n ih =>
    rw [Nat.succ_add, after, after, Option.bind_assoc]
    exact congrArg _ (funext fun s => ih s.2)

theorem Leads.textAfter_eq_some_iff (h : Leads mode l left state final) {text : String} :
    l.textAfter mode left state.source = some text ↔
      final.passes = state.passes + left ∧ final.source = text := by
  obtain ⟨n, hle, hpasses, l', htext, hstop⟩ := h.exists_after
  obtain ⟨m, rfl⟩ := Nat.exists_eq_add_of_le hle
  rw [textAfter, after_add, htext, Option.bind_some, hpasses]
  cases m with
  | zero => simp [after]
  | succ m => simp [after, hstop]

theorem Leads.passes_of_circle (h : Leads mode l left state final) (hl : l.Forgets)
    (hlt : state.passes < final.passes) (hsource : final.source = state.source) :
    final.passes = state.passes + left := by
  obtain ⟨n, hle, hpasses, l', htext, hstop⟩ := h.exists_after
  obtain ⟨m, rfl⟩ : ∃ m, n = m + 1 := Nat.exists_eq_succ_of_ne_zero (by omega)
  by_contra hne
  -- From the same text the linter would go the same way again, but it stays.
  have hnone := (alike_after htext).next?_eq_none hl (hstop (by omega))
  rw [after, ← hsource, hnone] at htext
  cases htext

end Linter

/-- The flag is set just if the text differs or at least two passes changed it. -/
theorem changed_iff {l : Linter} {source : String} {mode : FixMode} {r : FixReport}
    (h : (l.fixSource source mode).value = .ok r) :
    (r.changed = true ↔ r.source ≠ source ∨ 2 ≤ r.passes) ∧
      (l.Forgets →
        (r.passes < l.maxFixPasses → (r.changed = true ↔ r.source ≠ source)) ∧
        (r.changed = true ∧ r.source = source ↔
          0 < l.maxFixPasses ∧ l.textAfter mode l.maxFixPasses source = some source)) := by
  obtain ⟨final, d, hpasses, -, rfl⟩ := Linter.fixSource_eq_ok_iff.mp h
  have hleads := Linter.leads_fixPasses hpasses
  obtain ⟨-, hsame, hone, happlied⟩ := hleads.progress
  simp only [FixReport.changed, decide_eq_true_eq, gt_iff_lt]
  -- Fixes were applied just if passes were counted.
  have hchanged : 0 < final.applied ↔ 0 < final.passes := by
    refine ⟨fun hpos => Nat.pos_of_ne_zero fun hzero => ?_, happlied⟩
    rw [(hsame hzero).2] at hpos
    exact Nat.lt_irrefl 0 hpos
  have hflag : 0 < final.applied ↔ final.source ≠ source ∨ 2 ≤ final.passes := by
    rw [hchanged]
    constructor
    · intro hpos
      rcases (Nat.succ_le_of_lt hpos).eq_or_lt with heq | hlt
      · exact Or.inl (hone heq.symm)
      · exact Or.inr hlt
    · rintro (hne | htwo)
      · exact Nat.pos_of_ne_zero fun hzero => hne (hsame hzero).1
      · omega
  refine ⟨hflag, fun hl => ?_⟩
  have hcircle (hpos : 0 < final.passes) (heq : final.source = source) :
      final.passes = l.maxFixPasses := by
    simpa using hleads.passes_of_circle hl hpos heq
  have htext : l.textAfter mode l.maxFixPasses source = some source ↔
      final.passes = l.maxFixPasses ∧ final.source = source := by
    simpa using hleads.textAfter_eq_some_iff
  refine ⟨fun hlt => ⟨fun hpos heq => hlt.ne (hcircle (hchanged.mp hpos) heq),
    fun hne => hflag.mpr (Or.inl hne)⟩, ?_⟩
  rw [htext, hchanged]
  constructor
  · rintro ⟨hpos, heq⟩
    exact ⟨hcircle hpos heq ▸ hpos, hcircle hpos heq, heq⟩
  · rintro ⟨hpos, hcap, heq⟩
    exact ⟨hcap ▸ hpos, heq⟩

def recaseRule (name : String) (recase : Char → Char) : Rule :=
  let change (s : String) : String := .ofList (s.toList.map recase)
  literalRule name (fun s => change s ≠ s) fun _ s => pure (change s)

/-- A linter with two rules, each of which undoes what the other does. -/
def recaseLinter (maxFixPasses : Nat) : Linter :=
  ⟨[{ rule := recaseRule "upper" Char.toUpper }, { rule := recaseRule "lower" Char.toLower }],
    {}, maxFixPasses, true⟩

theorem forgets_recaseLinter (maxFixPasses : Nat) : (recaseLinter maxFixPasses).Forgets := by
  have hrule (name : String) (recase : Char → Char) : (recaseRule name recase).Forgets := by
    unfold recaseRule
    exact ⟨checksAnew_literalRule _ _ _, fixesAnew_literalRule _ _ _⟩
  simp [Linter.Forgets, recaseLinter, hrule]

/-- An odd number of passes over the rules that undo each other leaves the other case. -/
theorem changed_iff_three_passes :
    ∃ r, ((recaseLinter 3).fixSource "<a href=AB>" .safeOnly).value = .ok r ∧
      r.source = "<a href=ab>" ∧
      r.changed = true ∧ (recaseLinter 3).Forgets ∧
      (recaseLinter 3).textAfter .safeOnly 3 "<a href=AB>" ≠ some "<a href=AB>" := by
  have hrun : ((recaseLinter 3).fixSource "<a href=AB>" .safeOnly).value.toOption.any
      (fun r => decide (r.source = "<a href=ab>")) = true := by
    decide +kernel
  obtain ⟨r, hr, hsource⟩ := exists_ok_of_any hrun
  have hsource := of_decide_eq_true hsource
  have hne : r.source ≠ "<a href=AB>" := by
    rw [hsource]
    decide
  have hforgets := forgets_recaseLinter 3
  obtain ⟨hchanged, hforget⟩ := changed_iff hr
  obtain ⟨-, hcircle⟩ := hforget hforgets
  refine ⟨r, hr, hsource, hchanged.mpr (Or.inl hne), hforgets, fun hback => ?_⟩
  exact hne (hcircle.mpr ⟨by decide, hback⟩).2

/-- After two passes the text is as it was, and the flag says that it changed. -/
theorem changed_of_same_source :
    ∃ r, ((recaseLinter 2).fixSource "<a href=AB>" .safeOnly).value = .ok r ∧
      r.source = "<a href=AB>" ∧
      r.changed = true := by
  have hrun : ((recaseLinter 2).fixSource "<a href=AB>" .safeOnly).value.toOption.any
      (fun r => decide (r.source = "<a href=AB>" ∧ r.changed = true)) = true := by
    decide +kernel
  obtain ⟨r, hr, hfacts⟩ := exists_ok_of_any hrun
  exact ⟨r, hr, of_decide_eq_true hfacts⟩

end TemplateLint
