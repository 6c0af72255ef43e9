import TemplateLint.Suppression
import TemplateLint.Proofs.Place
import Mathlib.Data.List.Basic
import Mathlib.Data.List.Perm.Basic

/-!
# What directives hide

The directives of a document go over its offenses one after another and mark what they hide, each
with its own count of names. Whatever their order and however they overlap, what is left is what no
directive disables on its lines, sorted by place (`suppress_exact`).
-/

namespace TemplateLint

/-! ## Order of places -/

theorem Position.le_total (p q : Position) : (p.le q || q.le p) = true := by
  simp only [Position.le, Bool.or_eq_true, Bool.and_eq_true, decide_eq_true_eq, beq_iff_eq]
  omega

namespace Offense

/-- `sorted` holds what `offenses` holds, in order of place; what starts together keeps its
order. -/
structure StablySorted (offenses sorted : List Offense) : Prop where
  perm : sorted.Perm offenses
  inOrder : sorted.Pairwise fun a b => a.location.start.le b.location.start = true
  stable : ∀ p : Position,
    sorted.filter (·.location.start = p) = offenses.filter (·.location.start = p)

theorem startsBefore_trans (a b c : Offense) (hab : a.startsBefore b = true)
    (hbc : b.startsBefore c = true) :
    a.startsBefore c = true := Position.le_trans hab hbc

theorem startsBefore_total (a b : Offense) : (a.startsBefore b || b.startsBefore a) = true :=
  Position.le_total _ _

theorem filter_sort (offenses : List Offense) (p : Position) :
    (sort offenses).filter (·.location.start = p) = offenses.filter (·.location.start = p) := by
  -- Offenses that start together are in order already, so sorting keeps them as a sublist.
  have htied : (offenses.filter (·.location.start = p)).Pairwise fun a b =>
      startsBefore a b = true := by
    apply List.pairwise_of_forall_mem_list
    intro a ha b hb
    have ha : a.location.start = p := by simpa using (List.mem_filter.mp ha).2
    have hb : b.location.start = p := by simpa using (List.mem_filter.mp hb).2
    simp [startsBefore, ha, hb, Position.le]
  have hsub : (offenses.filter (·.location.start = p)).Sublist (sort offenses) :=
    List.sublist_mergeSort startsBefore_trans startsBefore_total htied
      List.filter_sublist
  have hsub := hsub.filter (·.location.start = p)
  rw [List.filter_filter] at hsub
  simp only [Bool.and_self] at hsub
  have hlen := ((List.mergeSort_perm offenses startsBefore).filter (·.location.start = p)).length_eq
  exact (hsub.eq_of_length hlen.symm).symm

theorem stablySorted_sort (offenses : List Offense) : StablySorted offenses (sort offenses) where
  perm := List.mergeSort_perm offenses startsBefore
  inOrder := List.pairwise_mergeSort startsBefore_trans startsBefore_total offenses
  stable := filter_sort offenses

/-- Some directive disables the offense's rule on the line where the offense starts. -/
def IsSilenced (directives : List Directive) (o : Offense) : Prop :=
  o.isSuppressible = true ∧ ∃ d ∈ directives, d.disables o.rule = true ∧ d.inScope o.location = true

instance (directives : List Directive) : DecidablePred (IsSilenced directives) :=
  fun _ => inferInstanceAs (Decidable (_ ∧ _))

theorem isSilenced_congr {directives directives' : List Directive} (h : directives'.Perm directives)
    (o : Offense) : IsSilenced directives' o ↔ IsSilenced directives o := by
  simp only [IsSilenced, h.mem_iff]

end Offense

/-! ## One directive over the offenses -/

namespace Directive

/-- Whether the directive marks an offense when it looks at it. -/
def covers (d : Directive) (o : Offense) : Bool :=
  o.isSuppressible && d.inScope o.location && (d.disablesEvery || d.entries.any (·.name == o.rule))

theorem covers_iff {d : Directive} (hd : d.matched = true) (o : Offense) :
    d.covers o = true ↔ o.isSuppressible = true ∧ d.disables o.rule = true ∧
      d.inScope o.location = true := by
  have hnames : d.entries.any (·.name == o.rule) = d.names.contains o.rule := by
    rw [names, List.contains_eq_any_beq, List.any_map]
    apply List.any_congr rfl
    intro e
    exact Bool.beq_comm
  simp only [covers, disables, hd, hnames, Bool.true_and, Bool.and_eq_true]
  tauto

def conceal (d : Directive) (m : Mark) : Mark := ⟨m.offense, m.hidden || d.covers m.offense⟩

theorem mark_fst (d : Directive) (m : Mark) (t : Tally) : (d.mark m t).1 = d.conceal m := by
  unfold mark conceal covers
  cases m.offense.isSuppressible && d.inScope m.offense.location with
  | false => simp
  | true =>
    cases hnamed : d.disablesEvery || d.entries.any (·.name == m.offense.rule) <;> simp [hnamed]

theorem sweep_fst (d : Directive) (marks : List Mark) (t : Tally) :
    (d.sweep marks t).1 = marks.map d.conceal := by
  induction marks generalizing t with
  | nil => rfl
  | cons m rest ih => simp [sweep, mark_fst, ih]

end Directive

/-! ## All directives -/

namespace Suppressing

theorem marks_step (c : Context) (s : Suppressing) (d : Directive) :
    (s.step c d).marks = s.marks.map d.conceal := by
  simp [step, Directive.sweep_fst]

theorem marks_foldl (c : Context) (s : Suppressing) (directives : List Directive) :
    (directives.foldl (step c) s).marks =
      s.marks.map fun m => ⟨m.offense, m.hidden || directives.any (·.covers m.offense)⟩ := by
  induction directives generalizing s with
  | nil => simp
  | cons d rest ih =>
    rw [List.foldl_cons, ih, marks_step, List.map_map]
    apply List.map_congr_left
    intro m _
    simp [Directive.conceal, Bool.or_assoc]

/-- The marks that are left when every directive has gone over the offenses. -/
theorem marks_run (c : Context) (raw : List Offense) (directives : List Directive) :
    ((directives.filter (·.matched)).foldl (step c) (start raw)).marks =
      raw.map fun o => ⟨o, decide (o.IsSilenced directives)⟩ := by
  rw [marks_foldl, start, List.map_map]
  apply List.map_congr_left
  intro o _
  have hany : (directives.filter (·.matched)).any (·.covers o) =
      decide (o.IsSilenced directives) := by
    rw [Bool.eq_iff_iff, List.any_eq_true, decide_eq_true_iff, Offense.IsSilenced]
    constructor
    · rintro ⟨d, hd, hcovers⟩
      rw [List.mem_filter] at hd
      obtain ⟨ho, hdisables, hscope⟩ := (d.covers_iff hd.2 o).mp hcovers
      exact ⟨ho, d, hd.1, hdisables, hscope⟩
    · rintro ⟨ho, d, hd, hdisables, hscope⟩
      have hmatched : d.matched = true := (Bool.and_eq_true_iff.mp hdisables).1
      exact ⟨d, List.mem_filter.mpr ⟨hd, hmatched⟩,
        (d.covers_iff hmatched o).mpr ⟨ho, hdisables, hscope⟩⟩
  simp only [Function.comp_apply, Bool.false_or, hany]

end Suppressing

theorem offenses_suppress (raw : List Offense) (directives : List Directive) (c : Context) :
    (suppress raw directives c).offenses =
      Offense.sort (raw.filter fun o => decide (¬ o.IsSilenced directives)) := by
  have hkept :
      ((directives.filter (·.matched)).foldl (Suppressing.step c) (Suppressing.start raw)).kept =
      raw.filter fun o => decide (¬ o.IsSilenced directives) := by
    rw [Suppressing.kept, Suppressing.marks_run, List.filterMap_map, ← List.filterMap_eq_filter]
    apply List.filterMap_congr
    intro o _
    by_cases h : o.IsSilenced directives <;> simp [h, Option.guard]
  rw [suppress, hkept]

theorem suppressedCount_suppress (raw : List Offense) (directives : List Directive) (c : Context) :
    (suppress raw directives c).suppressedCount = raw.countP (·.IsSilenced directives) := by
  rw [suppress, Suppressing.hiddenCount, Suppressing.marks_run, List.countP_map]
  rfl

/-- Suppression keeps exactly the offenses that are not silenced, in the stable order of their
starts, and counts the others. -/
theorem suppress_exact (raw : List Offense) (directives : List Directive) (c : Context) :
    let r := suppress raw directives c
    Offense.StablySorted (raw.filter fun o => decide (¬ o.IsSilenced directives)) r.offenses ∧
      r.suppressedCount = raw.countP (·.IsSilenced directives) ∧
      r.suppressedCount + r.offenses.length = raw.length ∧
      (raw.filter (·.IsSilenced directives) ++ r.offenses).Perm raw ∧
      ∀ directives', directives'.Perm directives →
        (suppress raw directives' c).offenses = r.offenses ∧
          (suppress raw directives' c).suppressedCount = r.suppressedCount := by
  intro r
  have hsorted :
      Offense.StablySorted (raw.filter fun o => decide (¬ o.IsSilenced directives)) r.offenses := by
    rw [show r.offenses = _ from offenses_suppress raw directives c]
    exact Offense.stablySorted_sort _
  have hperm : (raw.filter (·.IsSilenced directives) ++ r.offenses).Perm raw := by
    refine (hsorted.perm.append_left _).trans ?_
    have hsplit := List.filter_append_perm (fun o => decide (o.IsSilenced directives)) raw
    simpa using hsplit
  have hcount : r.suppressedCount = raw.countP (·.IsSilenced directives) :=
    suppressedCount_suppress raw directives c
  refine ⟨hsorted, hcount, ?_, hperm, ?_⟩
  · rw [hcount, List.countP_eq_length_filter, ← List.length_append, hperm.length_eq]
  · intro directives' hdirectives
    have hsame := Offense.isSilenced_congr hdirectives
    constructor
    · simp only [r, offenses_suppress, hsame]
    · simp only [r, suppressedCount_suppress, hsame]

end TemplateLint
