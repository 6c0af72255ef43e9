import Mathlib.Data.List.Basic
import TemplateLint.Fix

/-!
# Attempts

A pass over offenses runs one fix after the other, each on the document that the ones before it
left. Main statement: the runs that came to nothing leave only their counts and reports. Without
their offenses the pass ends with the same document (`run_changed`).
-/

namespace TemplateLint

/-- How the run of a fix ended, with the document it left. -/
abbrev Outcome := EStateM.Result FixFailure Document Bool

namespace Outcome

/-- The document of a fix that told of a change. -/
def mended? : Outcome → Option Document
  | .ok true e => some e
  | _ => none

def isDeclined : Outcome → Bool
  | .ok false _ => true
  | _ => false

/-- What went wrong. That a node is gone by now is no fault. -/
def fault? : Outcome → Option String
  | .ok _ _ => none
  | .error (.tree (.staleNode _)) _ => none
  | .error (.tree error) _ => some ("autofix failed: " ++ error.message)
  | .error (.crash crash) _ => some ("autofix panicked: " ++ crash.message)

/-- The report on what went wrong with the fix of an offense. -/
def report? (r : Outcome) (o : Offense) : Option Offense :=
  r.fault?.map fun fault =>
    { rule := o.rule, message := "internal error: " ++ fault, severity := .error,
      location := o.location, fix := none }

theorem report?_of_mended {r : Outcome} (h : r.mended?.isSome = true) (o : Offense) :
    r.report? o = none := by
  unfold mended? at h
  split at h
  · rfl
  · cases h

end Outcome

theorem Offense.ofFailure_eq (rule : String) (location : Location) (detail : String) :
    ofFailure rule location detail =
      { rule, message := "internal error: " ++ detail, severity := .error, location } := by
  have hstem : internalErrorStem ++ " " = "internal error: " := by decide
  have hmessage : (ofFailure rule location detail).message =
      internalErrorStem ++ " " ++ detail := rfl
  rw [hstem] at hmessage
  rw [← hmessage]
  rfl

/-- The run of an offense's fix on a document, if there is one and the mode allows it. -/
def Offense.outcome? (find : String → Option (NodeId → Edit Bool)) (mode : FixMode) (d : Document)
    (o : Offense) : Option Outcome := do
  let target ← o.fix
  let fix ← find o.rule
  if mode.allows target.safety then some ((fix target.node).run d) else none

namespace FixPass

/-- The runs of a pass. Only a run that told of a change hands its document on. -/
def tries (find : String → Option (NodeId → Edit Bool)) (mode : FixMode) :
    Document → List Offense → List (Offense × Outcome)
  | _, [] => []
  | d, o :: rest =>
    match o.outcome? find mode d with
    | none => tries find mode d rest
    | some r => (o, r) :: tries find mode (r.mended?.getD d) rest

def successes (tried : List (Offense × Outcome)) : List Offense :=
  (tried.filter (·.2.mended?.isSome)).map (·.1)

variable {find : String → Option (NodeId → Edit Bool)} {mode : FixMode}

/-! ## One step -/

theorem step_of_outcome {p : FixPass} {o : Offense} {r : Outcome}
    (h : o.outcome? find mode p.document = some r) :
    o.fix.isSome = true ∧ ∃ node, p.step find mode o = p.record o node (.ofRun r) := by
  unfold Offense.outcome? at h
  unfold step
  cases hfix : o.fix with
  | none => simp [hfix] at h
  | some target =>
    cases hrule : find o.rule with
    | none => simp [hfix, hrule] at h
    | some fix =>
      simp only [hfix, hrule, Option.bind_eq_bind, Option.bind_some, Option.ite_none_right_eq_some,
        Option.some.injEq] at h
      obtain ⟨hmode, rfl⟩ := h
      exact ⟨rfl, target.node, by simp [hmode]⟩

theorem step_of_no_outcome {p : FixPass} {o : Offense}
    (h : o.outcome? find mode p.document = none) :
    p.step find mode o = p ∧ o.fix.isSome = false ∨
      (∃ events, p.step find mode o = p.skip events) ∧ o.fix.isSome = true := by
  unfold Offense.outcome? at h
  unfold step
  cases hfix : o.fix with
  | none => exact Or.inl ⟨rfl, rfl⟩
  | some target =>
    refine Or.inr ⟨?_, rfl⟩
    by_cases hmode : mode.allows target.safety = true
    · cases hrule : find o.rule with
      | none => exact ⟨_, by simp only [hmode]; rfl⟩
      | some fix => simp [hfix, hrule, hmode] at h
    · exact ⟨[], by simp [hmode]⟩

/-! ## A pass by its runs -/

/-- The pass went from `p` to `p'` over `offenses`, whose fixes ran as in `tried`. -/
structure Accounts (p p' : FixPass) (offenses : List Offense) (tried : List (Offense × Outcome)) :
    Prop where
  document : p'.document = (tried.filterMap (·.2.mended?)).getLast?.getD p.document
  applied : p'.applied = p.applied + tried.countP (·.2.mended?.isSome)
  total : p'.applied + p'.skipped + tried.countP (·.2.isDeclined) =
    p.applied + p.skipped + offenses.countP (·.fix.isSome)
  failures : p'.failures = p.failures ++ tried.filterMap fun t => t.2.report? t.1

theorem accounts_fail (p : FixPass) {o : Offense} (detail : String) (event : Event) {r : Outcome}
    (ho : o.fix.isSome = true) (hfault : r.fault? = some detail) :
    Accounts p (p.fail o detail event) [o] [(o, r)] := by
  obtain ⟨hmended, hdeclined⟩ : r.mended? = none ∧ r.isDeclined = false := by
    unfold Outcome.fault? at hfault
    split at hfault
    · cases hfault
    · cases hfault
    · exact ⟨rfl, rfl⟩
    · exact ⟨rfl, rfl⟩
  constructor
  · simp [fail, skip, hmended]
  · simp [fail, skip, hmended]
  · simp [fail, skip, hdeclined, ho]
    omega
  · simp [fail, skip, Outcome.report?, hfault, Offense.ofFailure_eq]

theorem accounts_record (p : FixPass) {o : Offense} (node : NodeId) (r : Outcome)
    (ho : o.fix.isSome = true) : Accounts p (p.record o node (.ofRun r)) [o] [(o, r)] := by
  cases r with
  | ok changed e =>
    cases changed with
    | true =>
      refine ⟨rfl, rfl, ?_, by simp [Attempt.ofRun, record, Outcome.report?, Outcome.fault?]⟩
      simp [Attempt.ofRun, record, Outcome.isDeclined, ho]
      omega
    | false =>
      refine ⟨rfl, rfl, ?_, by simp [Attempt.ofRun, record, Outcome.report?, Outcome.fault?]⟩
      simp [Attempt.ofRun, record, Outcome.isDeclined, ho]
  | error failure e =>
    cases failure with
    | crash crash => exact accounts_fail p _ _ ho rfl
    | tree error =>
      cases error with
      | staleNode id =>
        refine ⟨rfl, rfl, ?_,
          by simp [Attempt.ofRun, record, skip, Outcome.report?, Outcome.fault?]⟩
        simp [Attempt.ofRun, record, skip, Outcome.isDeclined, ho]
        omega
      | unknownNode id => exact accounts_fail p _ _ ho rfl
      | foreignChild old child => exact accounts_fail p _ _ ho rfl
      | rootReplacement => exact accounts_fail p _ _ ho rfl

theorem accounts_no_outcome {p : FixPass} {o : Offense}
    (h : o.outcome? find mode p.document = none) : Accounts p (p.step find mode o) [o] [] := by
  rcases step_of_no_outcome h with ⟨hstep, ho⟩ | ⟨⟨events, hstep⟩, ho⟩
  · rw [hstep]
    exact ⟨rfl, rfl, by simp [ho], by simp⟩
  · rw [hstep]
    exact ⟨rfl, rfl, by simp [skip, ho]; omega, by simp [skip]⟩

theorem Accounts.trans {p p' p'' : FixPass} {os os' : List Offense}
    {ts ts' : List (Offense × Outcome)} (h : Accounts p p' os ts) (h' : Accounts p' p'' os' ts') :
    Accounts p p'' (os ++ os') (ts ++ ts') := by
  constructor
  · rw [h'.document, h.document, List.filterMap_append, List.getLast?_append, Option.getD_or]
  · rw [h'.applied, h.applied, List.countP_append, Nat.add_assoc]
  · have htotal := h.total
    have htotal' := h'.total
    rw [List.countP_append, List.countP_append]
    omega
  · rw [h'.failures, h.failures, List.filterMap_append, List.append_assoc]

theorem accounts_foldl (p : FixPass) (offenses : List Offense) :
    Accounts p (offenses.foldl (step find mode) p) offenses
      (tries find mode p.document offenses) := by
  induction offenses generalizing p with
  | nil => exact ⟨rfl, rfl, rfl, by simp [tries]⟩
  | cons o rest ih =>
    rw [List.foldl_cons, tries]
    specialize ih (p.step find mode o)
    split
    · rename_i hnone
      have hone := accounts_no_outcome hnone
      rw [hone.document] at ih
      exact hone.trans ih
    · rename_i r hr
      obtain ⟨ho, node, hstep⟩ := step_of_outcome hr
      have hone := accounts_record p node r ho
      have hdocument : (p.record o node (.ofRun r)).document = r.mended?.getD p.document := by
        rw [hone.document]
        cases hmended : r.mended? <;> simp [hmended]
      rw [hstep, hdocument] at ih
      rw [hstep]
      exact hone.trans ih

/-! ## Runs that told of a change -/

theorem tries_successes (d : Document) (offenses : List Offense) :
    tries find mode d (successes (tries find mode d offenses)) =
      (tries find mode d offenses).filter (·.2.mended?.isSome) := by
  induction offenses generalizing d with
  | nil => rfl
  | cons o rest ih =>
    rw [tries]
    split
    · exact ih d
    · rename_i r hr
      specialize ih (r.mended?.getD d)
      by_cases hmended : r.mended?.isSome = true
      · rw [successes, List.filter_cons, if_pos hmended, List.map_cons, tries, hr]
        exact congrArg _ ih
      · -- The runs behind this one are made on the document before it, with or without it.
        rw [successes, List.filter_cons, if_neg hmended]
        rwa [Option.not_isSome_iff_eq_none.mp hmended, Option.getD_none] at ih ⊢

theorem successes_sublist (d : Document) (offenses : List Offense) :
    (successes (tries find mode d offenses)).Sublist offenses := by
  have htried (d : Document) : ((tries find mode d offenses).map (·.1)).Sublist offenses := by
    induction offenses generalizing d with
    | nil => exact List.Sublist.refl []
    | cons o rest ih =>
      rw [tries]
      split
      · exact (ih d).cons o
      · exact (ih _).cons_cons o
  exact (List.filter_sublist.map _).trans (htried d)

theorem fix_of_mem_tries {d : Document} {offenses : List Offense} {t : Offense × Outcome}
    (h : t ∈ tries find mode d offenses) : t.1.fix.isSome = true := by
  induction offenses generalizing d with
  | nil => simp [tries] at h
  | cons o rest ih =>
    rw [tries] at h
    split at h
    · exact ih h
    · rename_i r hr
      rcases List.mem_cons.mp h with rfl | h
      · exact (step_of_outcome (p := { document := d }) hr).1
      · exact ih h

theorem tries_of_no_fix {offenses : List Offense} (h : ∀ o ∈ offenses, o.fix = none)
    (d : Document) :
    tries find mode d offenses = [] := by
  induction offenses with
  | nil => rfl
  | cons o rest ih =>
    rw [List.forall_mem_cons] at h
    have hnone : o.outcome? find mode d = none := by simp [Offense.outcome?, h.1]
    simp [tries, hnone, ih h.2]

theorem filterMap_mended_filter (tried : List (Offense × Outcome)) :
    (tried.filter (·.2.mended?.isSome)).filterMap (·.2.mended?) =
      tried.filterMap (·.2.mended?) := by
  rw [List.filterMap_filter]
  refine List.filterMap_congr fun t _ => ?_
  cases t.2.mended? <;> simp

end FixPass

/-- The fixes that told of a change lead to the same document by themselves, with nothing skipped
and nothing reported. -/
theorem run_changed (find : String → Option (NodeId → Edit Bool)) (mode : FixMode) (d : Document)
    (offenses : List Offense) :
    let pass := FixPass.run find mode d offenses
    let tried := FixPass.tries find mode d offenses
    let mended := FixPass.successes tried
    let again := FixPass.run find mode d mended
    mended.Sublist offenses ∧
      (again.document = pass.document ∧ again.applied = mended.length ∧ again.skipped = 0 ∧
        again.failures = []) ∧
      pass.document = (tried.filterMap (·.2.mended?)).getLast?.getD d ∧
      pass.applied = mended.length ∧
      pass.applied + pass.skipped + tried.countP (·.2.isDeclined) =
        offenses.countP (·.fix.isSome) ∧
      pass.failures = tried.filterMap fun t => t.2.report? t.1 := by
  intro pass tried mended again
  have hpass : FixPass.Accounts { document := d } pass offenses tried := FixPass.accounts_foldl _ _
  have hagain : FixPass.Accounts { document := d } again mended
      (tried.filter (·.2.mended?.isSome)) := by
    rw [← FixPass.tries_successes]
    exact FixPass.accounts_foldl _ _
  have hlength : mended.length = tried.countP (·.2.mended?.isSome) := by
    rw [List.countP_eq_length_filter]
    exact List.length_map _
  have happlied : again.applied = mended.length := by
    rw [hagain.applied, List.countP_filter, hlength]
    simp
  have hskipped : again.skipped = 0 := by
    have htotal := hagain.total
    have hfixes : mended.countP (·.fix.isSome) = mended.length := by
      rw [List.countP_eq_length]
      intro o ho
      obtain ⟨t, ht, rfl⟩ := List.mem_map.mp ho
      exact FixPass.fix_of_mem_tries (List.mem_of_mem_filter ht)
    simp only [hfixes] at htotal
    omega
  refine ⟨FixPass.successes_sublist d offenses, ⟨?_, happlied, hskipped, ?_⟩,
    hpass.document, ?_, ?_, ?_⟩
  · rw [hagain.document, hpass.document, FixPass.filterMap_mended_filter]
  · rw [hagain.failures, List.nil_append, List.filterMap_eq_nil_iff]
    intro t ht
    exact Outcome.report?_of_mended (List.mem_filter.mp ht).2 t.1
  · rw [hpass.applied, hlength, Nat.zero_add]
  · rw [hpass.total]
    simp
  · rw [hpass.failures, List.nil_append]

end TemplateLint
