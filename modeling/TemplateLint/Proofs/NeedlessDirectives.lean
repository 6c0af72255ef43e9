import TemplateLint.Proofs.DirectivePlaces
import TemplateLint.Proofs.Suppression

/-!
# Needless directives

A directive counts what it hides, and for each of its names what the name hides. The reports that
come out of the counts can be acted on: without the directives and the names that are reported the
same offenses are hidden, and nothing is left to report (`suppress_heeded`).
-/

namespace TemplateLint

namespace Directive

variable {d d' : Directive} {c : Context} {raw : List Offense} {o : Offense} {e : Entry}

/-! ## What is needless -/

def Silences (d : Directive) (o : Offense) : Prop :=
  o.isSuppressible = true ∧ d.disables o.rule = true ∧ d.inScope o.location = true

/-- The entry names the rule of an offense that the directive may hide. -/
def Counts (d : Directive) (e : Entry) (o : Offense) : Prop :=
  o.isSuppressible = true ∧ d.inScope o.location = true ∧ o.rule = e.name

def Idle (raw : List Offense) (d : Directive) : Prop := ∀ o ∈ raw, ¬ d.Silences o

/-- The name is that of an enabled rule and hides nothing. -/
def IdleEntry (c : Context) (raw : List Offense) (d : Directive) (e : Entry) : Prop :=
  e.name ≠ everyRule ∧ c.isEnabled e.name = true ∧ ∀ o ∈ raw, ¬ d.Counts e o

instance (d : Directive) : DecidablePred d.Silences := fun _ => inferInstanceAs (Decidable (_ ∧ _))

instance (d : Directive) (e : Entry) : DecidablePred (d.Counts e) :=
  fun _ => inferInstanceAs (Decidable (_ ∧ _))

instance (raw : List Offense) : DecidablePred (Idle raw) :=
  fun _ => inferInstanceAs (Decidable (∀ _ ∈ _, _))

instance (c : Context) (raw : List Offense) (d : Directive) : DecidablePred (IdleEntry c raw d) :=
  fun _ => inferInstanceAs (Decidable (_ ∧ _))

def needlessReport (c : Context) (message : String) (location : Location) : Offense :=
  { unnecessaryDescriptor.offense message location with
    severity := (c.severity? unnecessaryRule).getD unnecessaryDescriptor.severity }

/-- An idle directive is reported where it stands, another one for each idle name where the name
stands. -/
def needlessReports (c : Context) (raw : List Offense) (d : Directive) : List Offense :=
  if d.Idle raw then [needlessReport c d.unnecessaryMessage d.location]
  else (d.entries.filter (IdleEntry c raw d)).map fun e =>
    needlessReport c (idleMessage e) e.location

/-- What is left of the directive without what is needless in it. -/
def needed? (c : Context) (raw : List Offense) (d : Directive) : Option Directive :=
  if d.matched = false then some d
  else if d.Idle raw then none
  else some { d with entries := d.entries.filter fun e => ¬ IdleEntry c raw d e }

/-- What is left of the directive when everything at the place of a report is deleted. -/
def heeding? (reports : List Offense) (d : Directive) : Option Directive :=
  if d.matched = false then some d
  else if ∃ o ∈ reports, o.location = d.location then none
  else some { d with entries := d.entries.filter fun e => ¬ ∃ o ∈ reports, o.location = e.location }

/-! ## Counting -/

theorem silences_iff_covers (hd : d.matched = true) (o : Offense) :
    d.Silences o ↔ d.covers o = true :=
  (covers_iff hd o).symm

def tally (d : Directive) (raw : List Offense) : Tally :=
  ⟨raw.countP d.covers, d.entries.map fun e => raw.countP (d.Counts e)⟩

theorem mark_snd (d : Directive) (m : Mark) (hits : Nat) (f : Entry → Nat) :
    (d.mark m ⟨hits, d.entries.map f⟩).2 = ⟨hits + if d.covers m.offense then 1 else 0,
      d.entries.map fun e => f e + if d.Counts e m.offense then 1 else 0⟩ := by
  have hnames : d.countNames m.offense.rule (d.entries.map f) =
      d.entries.map fun e => if e.name == m.offense.rule then f e + 1 else f e := by
    rw [countNames, List.zipWith_map_right, List.zipWith_self]
  simp only [mark, hnames]
  cases hscope : m.offense.isSuppressible && d.inScope m.offense.location with
  | false =>
    have hcovers : d.covers m.offense = false := by simp [covers, hscope]
    have hcounts (e : Entry) : ¬ d.Counts e m.offense := fun h => by simp [h.1, h.2.1] at hscope
    simp [hcovers, hcounts]
  | true =>
    obtain ⟨hsuppressible, hscope⟩ := Bool.and_eq_true_iff.mp hscope
    have hcounts (e : Entry) : d.Counts e m.offense ↔ e.name = m.offense.rule := by
      simp [Counts, hsuppressible, hscope, eq_comm]
    have hadd (e : Entry) : (if e.name = m.offense.rule then f e + 1 else f e) =
        f e + if e.name = m.offense.rule then 1 else 0 := by split <;> rfl
    cases hnamed : d.disablesEvery || d.entries.any (·.name == m.offense.rule) with
    | false => simp [covers, hsuppressible, hscope, hnamed, hcounts, hadd]
    | true => simp [covers, hsuppressible, hscope, hnamed, hcounts, hadd]

theorem sweep_snd (d : Directive) (marks : List Mark) (hits : Nat) (f : Entry → Nat) :
    (d.sweep marks ⟨hits, d.entries.map f⟩).2 = ⟨hits + (marks.map Mark.offense).countP d.covers,
      d.entries.map fun e => f e + (marks.map Mark.offense).countP (d.Counts e)⟩ := by
  induction marks generalizing hits f with
  | nil => simp [sweep]
  | cons m rest ih =>
    simp only [sweep, mark_snd, ih, List.map_cons, List.countP_cons, decide_eq_true_eq]
    simp only [Nat.add_assoc, Nat.add_comm]

theorem sweep_noHits (d : Directive) (marks : List Mark) :
    (d.sweep marks d.noHits).2 = d.tally (marks.map Mark.offense) := by
  rw [noHits, sweep_snd]
  simp [tally]

theorem reports_tally (hd : d.matched = true) (c : Context) (raw : List Offense) :
    d.reports c (d.tally raw) = d.needlessReports c raw := by
  have hidle : (d.tally raw).hits = 0 ↔ d.Idle raw := by
    simp only [tally, List.countP_eq_zero, Idle, silences_iff_covers hd]
  have hzip : d.entries.zip (d.tally raw).nameHits = d.entries.map fun e =>
      (e, raw.countP (d.Counts e)) := by
    rw [tally, List.zip, List.zipWith_map_right, List.zipWith_self]
  unfold reports needlessReports
  simp only [hidle, hzip]
  split
  · rfl
  · rw [List.filterMap_map, ← List.filterMap_eq_filter, List.map_filterMap]
    apply List.filterMap_congr
    intro e _
    have hentry :
        (decide (raw.countP (d.Counts e) = 0) && e.name != everyRule && c.isEnabled e.name) =
        decide (IdleEntry c raw d e) := by
      rw [Bool.eq_iff_iff, decide_eq_true_iff, IdleEntry]
      simp only [Bool.and_eq_true, decide_eq_true_eq, bne_iff_ne, List.countP_eq_zero]
      tauto
    simp only [Function.comp_apply, hentry, Option.guard]
    split <;> rfl

end Directive

open Directive

namespace Suppressing

theorem offense_step (c : Context) (s : Suppressing) (d : Directive) :
    (s.step c d).marks.map Mark.offense = s.marks.map Mark.offense := by
  rw [marks_step, List.map_map]
  rfl

theorem reports_foldl {c : Context} (hc : c.isEnabled unnecessaryRule = true) (s : Suppressing)
    {directives : List Directive} (hd : ∀ d ∈ directives, d.matched = true) :
    (directives.foldl (step c) s).reports =
      s.reports ++ directives.flatMap (needlessReports c (s.marks.map Mark.offense)) := by
  induction directives generalizing s with
  | nil => simp
  | cons d rest ih =>
    have hstep : (s.step c d).reports = s.reports ++
        d.needlessReports c (s.marks.map Mark.offense) := by
      rw [← reports_tally (hd d List.mem_cons_self), ← sweep_noHits]
      simp [step, hc]
    rw [List.foldl_cons, ih _ fun d hd' => hd d (List.mem_cons_of_mem _ hd'), offense_step, hstep,
      List.flatMap_cons, List.append_assoc]

end Suppressing

variable {c : Context} {raw : List Offense} {directives : List Directive}

theorem unnecessaryDirectives_suppress
    (hc : c.isEnabled unnecessaryRule = true) (raw : List Offense) (directives : List Directive) :
    (suppress raw directives c).unnecessaryDirectives =
      Offense.sort ((directives.filter (·.matched)).flatMap (needlessReports c raw)) := by
  have hraw : (Suppressing.start raw).marks.map Mark.offense = raw := by
    rw [Suppressing.start, List.map_map]
    exact List.map_id raw
  rw [suppress, Suppressing.reports_foldl hc _ fun d hd => (List.mem_filter.mp hd).2, hraw]
  rfl

theorem mem_unnecessaryDirectives (hc : c.isEnabled unnecessaryRule = true) {o : Offense} :
    o ∈ (suppress raw directives c).unnecessaryDirectives ↔
      ∃ d ∈ directives, d.matched = true ∧ o ∈ d.needlessReports c raw := by
  rw [unnecessaryDirectives_suppress hc,
    (Offense.stablySorted_sort _).perm.mem_iff, List.mem_flatMap]
  simp only [List.mem_filter, and_assoc]

/-! ## Without what is needless -/

namespace Directive

variable {d d' : Directive}

theorem silences_needed (h : d.needed? c raw = some d') {o : Offense} (ho : o ∈ raw) :
    d'.Silences o ↔ d.Silences o := by
  unfold needed? at h
  split at h
  · rw [Option.some.inj h]
  split at h
  · cases h
  obtain rfl := Option.some.inj h
  by_cases hscope : o.isSuppressible = true ∧ d.inScope o.location = true
  swap
  · constructor
    · exact fun h => absurd ⟨h.1, h.2.2⟩ hscope
    · exact fun h => absurd ⟨h.1, h.2.2⟩ hscope
  -- A name that is left out is neither that for every rule nor the name of this offense's rule.
  have hkept (name : String) (hname : name = everyRule ∨ name = o.rule) :
      (∃ e ∈ d.entries.filter fun e => ¬ IdleEntry c raw d e, e.name = name) ↔
        ∃ e ∈ d.entries, e.name = name := by
    constructor
    · rintro ⟨e, he, hne⟩
      exact ⟨e, (List.mem_filter.mp he).1, hne⟩
    · rintro ⟨e, he, rfl⟩
      refine ⟨e, List.mem_filter.mpr ⟨he, ?_⟩, rfl⟩
      simp only [decide_eq_true_eq]
      rintro ⟨hevery, -, hcounts⟩
      rcases hname with hname | hname
      · exact hevery hname
      · exact hcounts o ho ⟨hscope.1, hscope.2, hname.symm⟩
  have hdisables : disables { d with entries := d.entries.filter fun e => ¬ IdleEntry c raw d e }
      o.rule = d.disables o.rule := by
    rw [Bool.eq_iff_iff]
    simp only [disables, disablesEvery, names, Bool.and_eq_true, Bool.or_eq_true,
      List.contains_iff_mem, List.mem_map, hkept everyRule (Or.inl rfl), hkept o.rule (Or.inr rfl)]
  simp only [Silences, hdisables]
  rfl

theorem isSome_needed_of_silences {o : Offense} (ho : o ∈ raw) (h : d.Silences o) :
    ∃ d', d.needed? c raw = some d' := by
  unfold needed?
  split
  · exact ⟨d, rfl⟩
  · rw [if_neg fun hidle : d.Idle raw => hidle o ho h]
    exact ⟨_, rfl⟩

theorem needlessReports_needed (h : d.needed? c raw = some d') (hd : d'.matched = true) :
    d'.needlessReports c raw = [] := by
  have hsame {o : Offense} (ho : o ∈ raw) := silences_needed h ho
  unfold needed? at h
  split at h
  · rename_i hmatched
    obtain rfl := Option.some.inj h
    rw [hmatched] at hd
    cases hd
  split at h
  · cases h
  rename_i hidle
  obtain rfl := Option.some.inj h
  have hidle' : ¬ Idle raw { d with entries := d.entries.filter fun e => ¬ IdleEntry c raw d e } :=
    fun hall => hidle fun o ho hs => hall o ho ((hsame ho).mpr hs)
  rw [needlessReports, if_neg hidle', List.map_eq_nil_iff, List.filter_eq_nil_iff]
  intro e he
  have hneeded := (List.mem_filter.mp he).2
  simp only [decide_eq_true_eq] at hneeded ⊢
  exact hneeded

end Directive

theorem isSilenced_iff_silences {o : Offense} :
    o.IsSilenced directives ↔ ∃ d ∈ directives, d.Silences o := by
  constructor
  · rintro ⟨ho, d, hd, hdisables, hscope⟩
    exact ⟨d, hd, ho, hdisables, hscope⟩
  · rintro ⟨d, hd, ho, hdisables, hscope⟩
    exact ⟨ho, d, hd, hdisables, hscope⟩

theorem isSilenced_needed {o : Offense} (ho : o ∈ raw) :
    o.IsSilenced (directives.filterMap (needed? c raw)) ↔ o.IsSilenced directives := by
  rw [isSilenced_iff_silences, isSilenced_iff_silences]
  constructor
  · rintro ⟨d', hd', hs⟩
    obtain ⟨d, hd, hneeded⟩ := List.mem_filterMap.mp hd'
    exact ⟨d, hd, (silences_needed hneeded ho).mp hs⟩
  · rintro ⟨d, hd, hs⟩
    obtain ⟨d', hneeded⟩ := isSome_needed_of_silences (c := c) ho hs
    exact ⟨d', List.mem_filterMap.mpr ⟨d, hd, hneeded⟩, (silences_needed hneeded ho).mpr hs⟩

theorem suppress_needed (hc : c.isEnabled unnecessaryRule = true) (raw : List Offense)
    (directives : List Directive) :
    suppress raw (directives.filterMap (needed? c raw)) c =
      ⟨(suppress raw directives c).offenses, (suppress raw directives c).suppressedCount, []⟩ := by
  have hreports : ((directives.filterMap (needed? c raw)).filter (·.matched)).flatMap
      (needlessReports c raw) = [] := by
    rw [List.flatMap_eq_nil_iff]
    intro d' hd'
    obtain ⟨hmem, hmatched⟩ := List.mem_filter.mp hd'
    obtain ⟨d, -, hneeded⟩ := List.mem_filterMap.mp hmem
    exact needlessReports_needed hneeded hmatched
  have hsilenced (o : Offense) (ho : o ∈ raw) :
      decide (o.IsSilenced (directives.filterMap (needed? c raw))) =
      decide (o.IsSilenced directives) := decide_eq_decide.mpr (isSilenced_needed ho)
  have hoffenses : (suppress raw (directives.filterMap (needed? c raw)) c).offenses =
      (suppress raw directives c).offenses := by
    rw [offenses_suppress, offenses_suppress]
    congr 1
    apply List.filter_congr
    intro o ho
    rw [decide_not, decide_not, hsilenced o ho]
  have hcount : (suppress raw (directives.filterMap (needed? c raw)) c).suppressedCount =
      (suppress raw directives c).suppressedCount := by
    rw [suppressedCount_suppress, suppressedCount_suppress]
    apply List.countP_congr
    intro o ho
    rw [hsilenced o ho]
  have hunnecessary :
      (suppress raw (directives.filterMap (needed? c raw)) c).unnecessaryDirectives = [] := by
    rw [unnecessaryDirectives_suppress hc, hreports]
    exact List.mergeSort_nil
  rw [← hoffenses, ← hcount, ← hunnecessary]

/-! ## By place -/

theorem location_of_mem_needlessReports {d : Directive} {o : Offense}
    (h : o ∈ d.needlessReports c raw) :
    (d.Idle raw ∧ o.location = d.location) ∨ ¬ d.Idle raw ∧ ∃ e ∈ d.entries, IdleEntry c raw d e ∧
      o.location = e.location := by
  unfold needlessReports at h
  split at h
  · rename_i hidle
    obtain rfl := List.mem_singleton.mp h
    exact Or.inl ⟨hidle, rfl⟩
  · rename_i hidle
    obtain ⟨e, he, rfl⟩ := List.mem_map.mp h
    obtain ⟨hmem, hentry⟩ := List.mem_filter.mp he
    exact Or.inr ⟨hidle, e, hmem, by simpa using hentry, rfl⟩

section
variable (hc : c.isEnabled unnecessaryRule = true) (ha : Apart directives)
  {d : Directive} (hd : d ∈ directives) (hm : d.matched = true)
include hc ha hd hm

theorem reported_iff_idle :
    (∃ o ∈ (suppress raw directives c).unnecessaryDirectives, o.location = d.location) ↔
      d.Idle raw := by
  constructor
  · rintro ⟨o, ho, hloc⟩
    obtain ⟨b, hb, -, hreport⟩ := (mem_unnecessaryDirectives hc).mp ho
    rcases location_of_mem_needlessReports hreport with ⟨hidle, hplace⟩ | ⟨-, e, he, -, hplace⟩
    · obtain rfl := ha.eq_of_location hd hb (hloc.symm.trans hplace)
      exact hidle
    · exact absurd (hloc.symm.trans hplace) (ha.location_ne hd hb he)
  · intro hidle
    refine ⟨needlessReport c d.unnecessaryMessage d.location,
      (mem_unnecessaryDirectives hc).mpr ⟨d, hd, hm, ?_⟩, rfl⟩
    rw [needlessReports, if_pos hidle]
    exact List.mem_singleton_self _

theorem entry_reported_iff_idle (hidle : ¬ d.Idle raw) {e : Entry} (he : e ∈ d.entries) :
    (∃ o ∈ (suppress raw directives c).unnecessaryDirectives, o.location = e.location) ↔
      IdleEntry c raw d e := by
  constructor
  · rintro ⟨o, ho, hloc⟩
    obtain ⟨b, hb, -, hreport⟩ := (mem_unnecessaryDirectives hc).mp ho
    rcases location_of_mem_needlessReports hreport with ⟨-, hplace⟩ | ⟨-, f, hf, hentry, hplace⟩
    · exact absurd (hplace.symm.trans hloc) (ha.location_ne hb hd he)
    · obtain ⟨rfl, rfl⟩ := ha.eq_of_entry_location hd hb he hf (hloc.symm.trans hplace)
      exact hentry
  · intro hentry
    refine ⟨needlessReport c (idleMessage e) e.location,
      (mem_unnecessaryDirectives hc).mpr ⟨d, hd, hm, ?_⟩, rfl⟩
    rw [needlessReports, if_neg hidle]
    exact List.mem_map_of_mem (f := fun e => needlessReport c (idleMessage e) e.location)
      (List.mem_filter.mpr ⟨he, by simpa using hentry⟩)

end

/-- Where directives do not overlap, the places of the reports tell what is needless. -/
theorem heeding_eq_needed (hc : c.isEnabled unnecessaryRule = true) (ha : Apart directives)
    (raw : List Offense) :
    directives.filterMap (heeding? (suppress raw directives c).unnecessaryDirectives) =
      directives.filterMap (needed? c raw) := by
  apply List.filterMap_congr
  intro d hd
  unfold heeding? needed?
  cases hm : d.matched with
  | false => rfl
  | true =>
    simp only [Bool.true_eq_false, if_false, reported_iff_idle hc ha hd hm]
    split
    · rfl
    · rename_i hidle
      have hentries :
          d.entries.filter (fun e => ¬ ∃ o ∈ (suppress raw directives c).unnecessaryDirectives,
          o.location = e.location) = d.entries.filter fun e => ¬ IdleEntry c raw d e := by
        apply List.filter_congr
        intro e he
        rw [decide_eq_decide, entry_reported_iff_idle hc ha hd hm hidle he]
      rw [hentries]

/-- The reports are exactly those on what is idle, and without it the same offenses are hidden. -/
theorem suppress_heeded (hc : c.isEnabled unnecessaryRule = true) (raw : List Offense)
    (directives : List Directive) :
    let r := suppress raw directives c
    r.unnecessaryDirectives = Offense.sort ((directives.filter (·.matched)).flatMap
      (needlessReports c raw)) ∧
    suppress raw (directives.filterMap (needed? c raw)) c = ⟨r.offenses, r.suppressedCount, []⟩ ∧
    ∀ source keep document, Document.parse source keep = .ok document →
      document.directives = directives →
      suppress raw (directives.filterMap (heeding? r.unnecessaryDirectives)) c =
        ⟨r.offenses, r.suppressedCount, []⟩ := by
  refine ⟨unnecessaryDirectives_suppress hc raw directives, suppress_needed hc raw directives, ?_⟩
  rintro source keep document hparse rfl
  rw [heeding_eq_needed hc (apart_of_parse hparse), suppress_needed hc]

/-- Of three directives on one line, one names every rule, one a name twice, and one is idle. -/
theorem suppress_heeded_overlapping :
    let source :=
      "<!-- herb:disable all, b --><%# herb:disable b, a, a, off %><%# herb:disable b %>"
    let c : Context := { enabledNames := ["a", "b", unnecessaryRule] }
    let place : Location := ⟨⟨1, 0⟩, ⟨1, 4⟩⟩
    let kept : Offense :=
      { rule := "herb-disable-comment-malformed", message := "m", severity := .error
        location := place }
    let raw := [{ kept with rule := "a" }, kept]
    c.isEnabled unnecessaryRule = true ∧ ∃ d, Document.parse source true = .ok d ∧
      let reports := (suppress raw d.directives c).unnecessaryDirectives
      let rest := d.directives.filterMap (heeding? reports)
      reports.map (·.location.start) = [⟨1, 23⟩, ⟨1, 45⟩, ⟨1, 60⟩] ∧
        rest.map names = [["all"], ["a", "a", "off"]] ∧
        suppress raw rest c = ⟨[kept], 1, []⟩ := by
  intro source c place kept raw
  -- The reports come in order of their places, so sorting leaves them as they are.
  have hok : (Document.parse source true).toOption.any (fun d =>
      let reports := (d.directives.filter (·.matched)).flatMap (needlessReports c raw)
      decide (reports.map (·.location.start) = [⟨1, 23⟩, ⟨1, 45⟩, ⟨1, 60⟩] ∧
        reports.Pairwise (fun a b => a.startsBefore b = true) ∧
        (d.directives.filterMap (heeding? reports)).map names = [["all"], ["a", "a", "off"]] ∧
        (suppress raw d.directives c).offenses = [kept] ∧
        (suppress raw d.directives c).suppressedCount = 1)) = true := by
    decide +kernel
  have hc : c.isEnabled unnecessaryRule = true := by decide +kernel
  obtain ⟨d, hd, hfacts⟩ := exists_ok_of_any hok
  obtain ⟨hplaces, hsorted, hnames, hoffenses, hcount⟩ := of_decide_eq_true hfacts
  obtain ⟨hreports, -, hheeded⟩ := suppress_heeded hc raw d.directives
  have hheeded := hheeded source true d hd rfl
  rw [Offense.sort, List.mergeSort_of_pairwise hsorted] at hreports
  rw [hoffenses, hcount] at hheeded
  refine ⟨hc, d, hd, ?_, ?_, hheeded⟩
  · rw [hreports, hplaces]
  · rw [hreports, hnames]

end TemplateLint
