import TemplateLint.Proofs.Letters

/-!
# Lowercase names

The fix of tag names lowercases every letter, not only those of ASCII. What it writes is a name
again (`isNameChar_lowerFrom`). The letters of ASCII in a name become what a reader takes them for
(`prefix_lowerFrom`), and only one letter outside ASCII becomes one of them, so most words never
come about (`asciiLower_of_lowerFrom`). A name that was lowercased is left as it is by lowercasing
it again (`lower_lower`).
-/

namespace TemplateLint.Text

/-! ## Single letters -/

def blankGaps : List (Nat × Nat) :=
  [(0x85, 0x85), (0xA0, 0xA0), (0x1680, 0x1680), (0x2000, 0x200A),
    (0x2028, 0x2029), (0x202F, 0x202F), (0x205F, 0x205F), (0x3000, 0x3000)]

theorem isBlank_of_gaps {c : Char} (h : 0x80 ≤ c.toNat)
    (hgaps : ∀ gap ∈ blankGaps, c.toNat < gap.1 ∨ gap.2 < c.toNat) :
    isBlank c = false := by
  simp only [blankGaps, List.forall_mem_cons] at hgaps
  simp only [isBlank, Bool.or_eq_false_iff, Bool.and_eq_false_iff,
    decide_eq_false_iff_not, beq_eq_false_iff_ne]
  omega

theorem toNat_ofNat {n : Nat} (h : n.isValidChar) : (Char.ofNat n).toNat = n := by
  rw [Char.ofNat, dif_pos h]
  rfl

/-- Whether the small letters of the run are outside ASCII, and neither blanks nor surrogates. -/
def Case.Run.lands (r : Case.Run) : Bool :=
  let low := r.first + r.shift
  let high := r.last + r.shift
  0x80 ≤ low && (high < 0xD800 || 0xE000 ≤ low && high < 0x110000) &&
    blankGaps.all fun gap => high < gap.1 || gap.2 < low

/-- Only one letter outside ASCII has its small letter in ASCII, if letters of more than one part
are left aside. -/
theorem lowerRuns_land : ∀ r ∈ Case.lowerRuns, r = ⟨0x212A, 0x212A, 1, -8383⟩ ∨ r.lands = true := by
  decide +kernel

theorem lowerSimple_of_find {c : Char} (h : 0x80 ≤ c.toNat) {run : Case.Run}
    (hrun : Case.lowerRuns.find? (·.covers c.toNat) = some run) :
    Case.lowerSimple c = 'k' ∨ run.lands = true ∧ run.covers c.toNat = true ∧
      ((Case.lowerSimple c).toNat : Int) = c.toNat + run.shift := by
  have hsmall : Case.lowerSimple c = Char.ofNat (c.toNat + run.shift).toNat := by
    rw [Case.lowerSimple, if_neg (Nat.not_lt.mpr h), hrun]
  have hcovers : run.covers c.toNat = true := by simpa using List.find?_some hrun
  have hrange := hcovers
  simp only [Case.Run.covers, Bool.and_eq_true, decide_eq_true_eq] at hrange
  obtain ⟨⟨hfirst, hlast⟩, -⟩ := hrange
  rcases lowerRuns_land run (List.mem_of_find?_eq_some hrun) with rfl | hlands
  · obtain hc : c.toNat = 0x212A := Nat.le_antisymm hlast hfirst
    rw [hsmall, hc]
    exact Or.inl rfl
  · refine Or.inr ⟨hlands, hcovers, ?_⟩
    simp only [Case.Run.lands, Bool.and_eq_true, Bool.or_eq_true, decide_eq_true_eq] at hlands
    obtain ⟨⟨hlow, hvalid⟩, -⟩ := hlands
    rw [hsmall, toNat_ofNat]
    · omega
    · unfold Nat.isValidChar
      omega

theorem lowerSimple_of_not_ascii {c : Char} (h : 0x80 ≤ c.toNat) :
    Case.lowerSimple c = 'k' ∨
      0x80 ≤ (Case.lowerSimple c).toNat ∧
      (isBlank c = false → isBlank (Case.lowerSimple c) = false) := by
  cases hrun : Case.lowerRuns.find? (·.covers c.toNat) with
  | none =>
    have hself : Case.lowerSimple c = c := by rw [Case.lowerSimple, if_neg (Nat.not_lt.mpr h), hrun]
    rw [hself]
    exact Or.inr ⟨h, fun hblank => hblank⟩
  | some run =>
    refine (lowerSimple_of_find h hrun).imp_right ?_
    rintro ⟨hlands, hcovers, hcode⟩
    simp only [Case.Run.covers, Bool.and_eq_true, decide_eq_true_eq] at hcovers
    simp only [Case.Run.lands, Bool.and_eq_true, Bool.or_eq_true, decide_eq_true_eq,
      List.all_eq_true] at hlands
    obtain ⟨⟨hfirst, hlast⟩, -⟩ := hcovers
    obtain ⟨⟨hlow, -⟩, hgaps⟩ := hlands
    have hascii : 0x80 ≤ (Case.lowerSimple c).toNat := by omega
    refine ⟨hascii, fun _ => isBlank_of_gaps hascii fun gap hgap => ?_⟩
    have := hgaps gap hgap
    omega

theorem isNameChar_lowerSimple {c : Char} (h : Markup.isNameChar c = true) :
    Markup.isNameChar (Case.lowerSimple c) = true := by
  by_cases hascii : c.toNat < 0x80
  · rw [Case.lowerSimple, if_pos hascii, isNameChar_toLower, h]
  · have hblank : isBlank c = false := by
      simp only [Markup.isNameChar, Bool.and_eq_true, Bool.not_eq_true'] at h
      exact h.1.1.1
    rcases lowerSimple_of_not_ascii (Nat.not_lt.mp hascii) with hk | ⟨hcode, hsmall⟩
    · rw [hk]
      decide
    · have hmarks : Case.lowerSimple c ≠ '>' ∧ Case.lowerSimple c ≠ '/' ∧
          Case.lowerSimple c ≠ '<' := by
        refine ⟨?_, ?_, ?_⟩ <;> intro hmark <;> rw [hmark] at hcode <;>
          exact absurd hcode (by decide)
      simp [Markup.isNameChar, hsmall hblank, hmarks]

/-! ## Names -/

theorem isNameChar_lowerFrom (before : List Char) {s : List Char}
    (h : ∀ c ∈ s, Markup.isNameChar c = true) :
    ∀ c ∈ Case.lowerFrom before s, Markup.isNameChar c = true := by
  induction s generalizing before with
  | nil => simp [Case.lowerFrom]
  | cons c rest ih =>
    rw [List.forall_mem_cons] at h
    rw [Case.lowerFrom, List.forall_mem_append]
    refine ⟨?_, ih _ h.2⟩
    split
    · rw [List.forall_mem_singleton, Case.lowerSigma]
      split <;> decide
    · split
      · exact List.all_eq_true.mp (by decide)
      · rw [List.forall_mem_singleton]
        exact isNameChar_lowerSimple h.1

theorem lowerFrom_cons_of_ascii (before : List Char) {c : Char}
    (h : c.toNat < 0x80) (rest : List Char) :
    Case.lowerFrom before (c :: rest) = c.toLower :: Case.lowerFrom (c :: before) rest := by
  have hne : c ≠ 'Σ' ∧ c ≠ 'İ' := by
    refine ⟨?_, ?_⟩ <;> rintro rfl <;> exact absurd h (by decide)
  rw [Case.lowerFrom, if_neg hne.1, if_neg hne.2, Case.lowerSimple, if_pos h]
  rfl

theorem ascii_of_isAsciiLetter {c : Char} (h : isAsciiLetter c = true) : c.toNat < 0x80 := by
  rw [isAsciiLetter_iff] at h
  omega

theorem ascii_of_toLower {c : Char} (h : isAsciiLetter c.toLower = true) : c.toNat < 0x80 :=
  ascii_of_isAsciiLetter (by rwa [isAsciiLetter_toLower] at h)

theorem prefix_lowerFrom {w s : List Char} (hw : ∀ c ∈ w, isAsciiLetter c = true)
    (h : w <+: asciiLower s) (before : List Char) : w <+: asciiLower (Case.lowerFrom before s) := by
  induction w generalizing s before with
  | nil => exact List.nil_prefix
  | cons x w ih =>
    rw [List.forall_mem_cons] at hw
    cases s with
    | nil => simp [asciiLower] at h
    | cons c rest =>
      simp only [asciiLower, List.map_cons, List.cons_prefix_cons] at h
      obtain ⟨rfl, hrest⟩ := h
      rw [lowerFrom_cons_of_ascii before (ascii_of_toLower hw.1), asciiLower,
        List.map_cons, toLower_toLower, List.cons_prefix_cons]
      exact ⟨rfl, ih hw.2 hrest _⟩

theorem asciiLower_of_lowerFrom {w s : List Char}
    (hw : ∀ c ∈ w, isAsciiLetter c = true ∧ c ≠ 'k') {before : List Char}
    (h : asciiLower (Case.lowerFrom before s) = w) : asciiLower s = w := by
  induction s generalizing w before with
  | nil => exact h
  | cons c rest ih =>
    by_cases hascii : c.toNat < 0x80
    · rw [lowerFrom_cons_of_ascii before hascii, asciiLower, List.map_cons, toLower_toLower] at h
      subst h
      rw [List.forall_mem_cons] at hw
      rw [asciiLower, List.map_cons]
      exact congrArg _ (ih hw.2 rfl)
    · -- One of the small letters is outside ASCII, or it is the one that is not in the name.
      exfalso
      have hout {x : Char} (hmem : x ∈ Case.lowerFrom before (c :: rest)) :
          x.toNat < 0x80 ∧ x ≠ 'k' := by
        obtain ⟨hletter, hk⟩ := hw x.toLower (h ▸ List.mem_map_of_mem hmem)
        refine ⟨ascii_of_toLower hletter, ?_⟩
        rintro rfl
        exact hk rfl
      rw [Case.lowerFrom] at hout
      by_cases hsigma : c = 'Σ'
      · have hlow := (hout (x := Case.lowerSigma before rest) (by simp [hsigma])).1
        unfold Case.lowerSigma at hlow
        split at hlow <;> exact absurd hlow (by decide)
      by_cases hdot : c = 'İ'
      · have hlow := (hout (x := '\u0307') (by simp [hdot])).1
        exact absurd hlow (by decide)
      · have hlow := hout (x := Case.lowerSimple c) (by simp [hsigma, hdot])
        rcases lowerSimple_of_not_ascii (Nat.not_lt.mp hascii) with hk | ⟨hcode, -⟩
        · exact hlow.2 hk
        · omega

theorem sameLetters_lower {w : String}
    (hw : ∀ c ∈ asciiLower w.toList, isAsciiLetter c = true ∧ c ≠ 'k') (s : String) :
    sameLetters w (Case.lower s) = sameLetters w s := by
  rw [sameLetters, sameLetters, Bool.eq_iff_iff, beq_iff_eq, beq_iff_eq, toList_lower]
  constructor
  · intro h
    exact (asciiLower_of_lowerFrom hw h.symm).symm
  · intro h
    have hascii : ∀ c ∈ s.toList, c.toNat < 0x80 := by
      intro c hc
      exact ascii_of_toLower (hw _ (h ▸ List.mem_map_of_mem hc)).1
    rw [isPlain_of_ascii hascii, asciiLower_asciiLower, h]

/-! ## Letters that stay small -/

/-- Whether no small letter of the first run is covered by the second: they lie apart, or they
alternate. -/
def Case.Run.apart (r s : Case.Run) : Bool :=
  let low := (r.first + r.shift).toNat
  let high := (r.last + r.shift).toNat
  high.blt s.first || s.last.blt low || (r.step == 2 || r.first == r.last) && s.step == 2 &&
    (low + s.first) % 2 == 1

theorem Case.Run.not_covers_of_apart {r s : Case.Run} (h : r.apart s = true) {n m : Nat}
    (hn : r.covers n = true) (hlow : 0 ≤ r.first + r.shift) (hm : (m : Int) = n + r.shift) :
    s.covers m = false := by
  simp only [apart, Bool.or_eq_true, Bool.and_eq_true, Nat.blt_eq, beq_iff_eq] at h
  simp only [covers, Bool.and_eq_true, decide_eq_true_eq, beq_iff_eq] at hn
  rw [Bool.eq_false_iff]
  simp only [covers, ne_eq, Bool.and_eq_true, decide_eq_true_eq, beq_iff_eq]
  rintro ⟨⟨hfirst, hlast⟩, hstep⟩
  rcases h with (h | h) | ⟨⟨hr | hr, hs⟩, hodd⟩
  · omega
  · omega
  · rw [hr] at hn
    rw [hs] at hstep
    omega
  · rw [hs] at hstep
    omega

/-- The letters that have small letters: those of the runs and the two that are treated on their
own. -/
def capitalRuns : List Case.Run :=
  ⟨'İ'.toNat, 'İ'.toNat, 1, 0⟩ :: ⟨'Σ'.toNat, 'Σ'.toNat, 1, 0⟩ :: Case.lowerRuns

theorem lowerRuns_apart : (Case.lowerRuns.all fun r => capitalRuns.all r.apart) = true := by
  decide +kernel

/-- Lowercasing leaves the character as it is, wherever it stands. -/
def IsSmall (c : Char) : Prop := c ≠ 'Σ' ∧ c ≠ 'İ' ∧ Case.lowerSimple c = c

theorem isSmall_of_not_covered {c : Char} (hascii : 0x80 ≤ c.toNat)
    (h : ∀ s ∈ capitalRuns, s.covers c.toNat = false) : IsSmall c := by
  simp only [capitalRuns, List.forall_mem_cons] at h
  obtain ⟨hdot, hsigma, hruns⟩ := h
  refine ⟨?_, ?_, ?_⟩
  · rintro rfl
    exact absurd hsigma (by decide)
  · rintro rfl
    exact absurd hdot (by decide)
  · have hnone : Case.lowerRuns.find? (·.covers c.toNat) = none := by
      rw [List.find?_eq_none]
      intro s hs
      simp [hruns s hs]
    rw [Case.lowerSimple, if_neg (Nat.not_lt.mpr hascii), hnone]

theorem isSmall_toLower {c : Char} (h : c.toNat < 0x80) : IsSmall c.toLower := by
  have hascii : c.toLower.toNat < 0x80 := by
    by_cases hu : c.isUpper = true
    · have hrange := (isUpper_iff c).mp hu
      rw [toNat_toLower_of_isUpper hu]
      omega
    · rwa [toLower_of_not_isUpper hu]
  refine ⟨?_, ?_, ?_⟩
  · intro he
    exact absurd (he ▸ hascii) (by decide)
  · intro he
    exact absurd (he ▸ hascii) (by decide)
  · rw [Case.lowerSimple, if_pos hascii, toLower_toLower]

theorem isSmall_lowerSimple {c : Char} (hsigma : c ≠ 'Σ') (hdot : c ≠ 'İ') :
    IsSmall (Case.lowerSimple c) := by
  by_cases hascii : c.toNat < 0x80
  · rw [Case.lowerSimple, if_pos hascii]
    exact isSmall_toLower hascii
  have hascii := Nat.not_lt.mp hascii
  cases hrun : Case.lowerRuns.find? (·.covers c.toNat) with
  | none =>
    have hself : Case.lowerSimple c = c := by
      rw [Case.lowerSimple, if_neg (Nat.not_lt.mpr hascii), hrun]
    rw [hself]
    exact ⟨hsigma, hdot, hself⟩
  | some run =>
    rcases lowerSimple_of_find hascii hrun with hk | ⟨hlands, hcovers, hcode⟩
    · rw [hk]
      exact ⟨by decide, by decide, by decide⟩
    · have hlow : 0x80 ≤ run.first + run.shift := by
        simp only [Case.Run.lands, Bool.and_eq_true, decide_eq_true_eq] at hlands
        exact hlands.1.1
      have hfirst : run.first ≤ c.toNat := by
        simp only [Case.Run.covers, Bool.and_eq_true, decide_eq_true_eq] at hcovers
        exact hcovers.1.1
      refine isSmall_of_not_covered (by omega) fun s hs => ?_
      have hapart := List.all_eq_true.mp lowerRuns_apart run (List.mem_of_find?_eq_some hrun)
      exact Case.Run.not_covers_of_apart (List.all_eq_true.mp hapart s hs) hcovers (by omega) hcode

theorem lowerFrom_of_isSmall {s : List Char} (h : ∀ c ∈ s, IsSmall c) (before : List Char) :
    Case.lowerFrom before s = s := by
  induction s generalizing before with
  | nil => rfl
  | cons c rest ih =>
    rw [List.forall_mem_cons] at h
    obtain ⟨⟨hsigma, hdot, hsmall⟩, hrest⟩ := h
    rw [Case.lowerFrom, if_neg hsigma, if_neg hdot, hsmall, ih hrest]
    rfl

theorem isSmall_of_mem_lowerFrom {before s : List Char} {c : Char}
    (h : c ∈ Case.lowerFrom before s) : IsSmall c := by
  induction s generalizing before with
  | nil => cases h
  | cons x rest ih =>
    rw [Case.lowerFrom, List.mem_append] at h
    rcases h with h | h
    · split at h
      · rw [List.mem_singleton.mp h, Case.lowerSigma]
        split <;> exact ⟨by decide, by decide, by decide⟩
      · split at h
        · simp only [List.mem_cons, List.not_mem_nil, or_false] at h
          rcases h with rfl | rfl <;> exact ⟨by decide, by decide, by decide +kernel⟩
        · rename_i hsigma hdot
          rw [List.mem_singleton.mp h]
          exact isSmall_lowerSimple hsigma hdot
    · exact ih h

theorem lower_lower (s : String) : Case.lower (Case.lower s) = Case.lower s := by
  rw [Case.lower, toList_lower, lowercase, lowerFrom_of_isSmall fun c => isSmall_of_mem_lowerFrom]
  rfl

end TemplateLint.Text
