import TemplateLint.Markup.Reader.Erb
import TemplateLint.Text.Case.Lower
import Mathlib.Tactic.Common

/-!
# Letters and their case

Small letters keep what readers look at: a letter stays a letter and a name character stays one.
Where lowercasing touches letters of ASCII only, it is the mapping that close tags are compared by.
-/

namespace TemplateLint.Text

theorem isUpper_iff (c : Char) : c.isUpper = true ↔ 65 ≤ c.toNat ∧ c.toNat ≤ 90 :=
  decide_eq_true_iff

theorem isLower_iff (c : Char) : c.isLower = true ↔ 97 ≤ c.toNat ∧ c.toNat ≤ 122 := by
  refine Bool.and_eq_true_iff.trans ?_
  rw [decide_eq_true_iff, decide_eq_true_iff]
  rfl

theorem isAsciiLetter_iff (c : Char) :
    isAsciiLetter c = true ↔ 65 ≤ c.toNat ∧ c.toNat ≤ 90 ∨ 97 ≤ c.toNat ∧ c.toNat ≤ 122 := by
  rw [← isUpper_iff, ← isLower_iff]
  exact Bool.or_eq_true_iff

theorem toLower_of_not_isUpper {c : Char} (h : ¬ c.isUpper = true) : c.toLower = c :=
  dif_neg (mt decide_eq_true h)

theorem toNat_toLower_of_isUpper {c : Char} (h : c.isUpper = true) :
    c.toLower.toNat = c.toNat + 32 := by
  have hrange := (isUpper_iff c).mp h
  have hval : c.toLower.val = c.val + 32 := congrArg Char.val (dif_pos (of_decide_eq_true h))
  have hlt : c.val.toNat + 32 < 2 ^ 32 := by
    change c.toNat + 32 < 2 ^ 32
    omega
  change c.toLower.val.toNat = c.val.toNat + 32
  rw [hval, UInt32.toNat_add]
  exact Nat.mod_eq_of_lt hlt

theorem toLower_toLower (c : Char) : c.toLower.toLower = c.toLower := by
  by_cases h : c.isUpper = true
  · apply toLower_of_not_isUpper
    have hrange := (isUpper_iff c).mp h
    rw [isUpper_iff, toNat_toLower_of_isUpper h]
    omega
  · rw [toLower_of_not_isUpper h, toLower_of_not_isUpper h]

theorem toLower_congr {p : Char → Bool}
    (hp : ∀ c : Char, isAsciiLetter c = true → p c = true) (c : Char) :
    p c.toLower = p c := by
  by_cases h : c.isUpper = true
  · have hrange := (isUpper_iff c).mp h
    have hsmall : isAsciiLetter c.toLower = true := by
      rw [isAsciiLetter_iff, toNat_toLower_of_isUpper h]
      omega
    have hcapital : isAsciiLetter c = true := by
      rw [isAsciiLetter_iff]
      omega
    rw [hp _ hsmall, hp _ hcapital]
  · rw [toLower_of_not_isUpper h]

theorem isAsciiLetter_toLower (c : Char) : isAsciiLetter c.toLower = isAsciiLetter c :=
  toLower_congr (fun _ h => h) c

theorem eq_of_toLower {c x : Char} (hx : isAsciiLetter x = false) (h : c.toLower = x) : c = x := by
  by_cases hu : c.isUpper = true
  · have hletter : isAsciiLetter c = true := by
      have hrange := (isUpper_iff c).mp hu
      rw [isAsciiLetter_iff]
      omega
    rw [← h, isAsciiLetter_toLower, hletter] at hx
    simp at hx
  · rwa [toLower_of_not_isUpper hu] at h

theorem isNameChar_of_isAsciiLetter {c : Char} (h : isAsciiLetter c = true) :
    Markup.isNameChar c = true := by
  rw [isAsciiLetter_iff] at h
  have hmark : c ≠ '>' ∧ c ≠ '/' ∧ c ≠ '<' := by
    refine ⟨?_, ?_, ?_⟩ <;> rintro rfl <;> exact absurd h (by decide)
  have hblank : isBlank c = false := by
    simp only [isBlank, Bool.or_eq_false_iff, Bool.and_eq_false_iff,
      decide_eq_false_iff_not, beq_eq_false_iff_ne]
    omega
  simp [Markup.isNameChar, hblank, hmark]

theorem isNameChar_toLower (c : Char) : Markup.isNameChar c.toLower = Markup.isNameChar c :=
  toLower_congr (fun _ => isNameChar_of_isAsciiLetter) c

theorem asciiLower_asciiLower (s : List Char) : asciiLower (asciiLower s) = asciiLower s := by
  rw [asciiLower, asciiLower, List.map_map]
  exact List.map_congr_left fun c _ => toLower_toLower c

theorem length_asciiLower (s : List Char) : (asciiLower s).length = s.length := by simp [asciiLower]

/-! ## Plain names -/

/-- A name with its letters small, as the fix of tag names writes it. -/
def lowercase (name : List Char) : List Char := Case.lowerFrom [] name

/-- Lowercasing the name changes letters of ASCII only. -/
def IsPlain (name : List Char) : Prop := lowercase name = asciiLower name

instance (name : List Char) : Decidable (IsPlain name) := inferInstanceAs (Decidable (_ = _))

theorem toList_lower (s : String) : (Case.lower s).toList = lowercase s.toList := by
  simp [Case.lower, lowercase]

/-- The character has its ASCII small letter, or none, by the full mapping too. -/
def isPlainChar (c : Char) : Bool := c != 'Σ' && c != 'İ' && Case.lowerSimple c == c.toLower

theorem lowerFrom_eq_iff (before s : List Char) :
    Case.lowerFrom before s = asciiLower s ↔ ∀ c ∈ s, isPlainChar c = true := by
  induction s generalizing before with
  | nil => simp [Case.lowerFrom, asciiLower]
  | cons c rest ih =>
    rw [Case.lowerFrom, List.forall_mem_cons, ← ih (c :: before), asciiLower,
      List.map_cons, isPlainChar]
    by_cases hsigma : c = 'Σ'
    · have hne : Case.lowerSigma before rest ≠ 'Σ' := by
        unfold Case.lowerSigma
        split <;> decide
      simp [hsigma, hne]
    by_cases hdot : c = 'İ'
    · simp [hdot]
    · simp [hsigma, hdot, asciiLower]

theorem isPlain_iff (name : List Char) : IsPlain name ↔ ∀ c ∈ name, isPlainChar c = true :=
  lowerFrom_eq_iff [] name

theorem isPlainChar_of_ascii {c : Char} (h : c.toNat < 0x80) : isPlainChar c = true := by
  have hne : c ≠ 'Σ' ∧ c ≠ 'İ' := by
    refine ⟨?_, ?_⟩ <;> rintro rfl <;> exact absurd h (by decide)
  simp [isPlainChar, hne, Case.lowerSimple, h]

theorem isPlain_of_ascii {name : List Char} (h : ∀ c ∈ name, c.toNat < 0x80) : IsPlain name :=
  (isPlain_iff name).mpr fun c hc => isPlainChar_of_ascii (h c hc)

theorem isPlainChar_toLower {c : Char} (h : isPlainChar c = true) :
    isPlainChar c.toLower = true := by
  by_cases hu : c.isUpper = true
  · have hrange := (isUpper_iff c).mp hu
    apply isPlainChar_of_ascii
    rw [toNat_toLower_of_isUpper hu]
    omega
  · rwa [toLower_of_not_isUpper hu]

theorem IsPlain.asciiLower {name : List Char} (h : IsPlain name) : IsPlain (asciiLower name) := by
  rw [isPlain_iff] at h ⊢
  intro c hc
  obtain ⟨b, hb, rfl⟩ := List.mem_map.mp hc
  exact isPlainChar_toLower (h b hb)

theorem IsPlain.lowercase_lowercase {name : List Char} (h : IsPlain name) :
    lowercase (lowercase name) = lowercase name := by
  have hsmall := h.asciiLower
  unfold IsPlain at h hsmall
  rw [h, hsmall, asciiLower_asciiLower]

end TemplateLint.Text
