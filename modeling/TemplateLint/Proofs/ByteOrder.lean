import Mathlib.Data.List.Basic
import Mathlib.Data.String.Basic

/-!
# The order of bytes

Texts are ordered by their characters. Main statement: this is the order of their bytes in UTF-8
(`le_iff_utf8Bytes`), since of two characters the lesser one has the lesser bytes.
-/

namespace TemplateLint.Text

def utf8Bytes (s : String) : List UInt8 := s.toByteArray.data.toList

theorem utf8Bytes_eq (s : String) : utf8Bytes s = s.toList.flatMap String.utf8EncodeChar := by
  rw [utf8Bytes, ← s.ofList_toList, String.toByteArray_ofList,
    String.ofList_toList, List.utf8Encode]
  simp

/-! ## Characters -/

/-- The last `n` digits of a number to the base 64, as bytes that continue a character. -/
def continuation : (n : Nat) → Nat → List UInt8
  | 0, _ => []
  | n + 1, v => UInt8.ofNat (v / 64 ^ n % 64 + 128) :: continuation n v

theorem ofNat_lt_ofNat {m n : Nat} (hlt : m < n) (hn : n < 256) :
    UInt8.ofNat m < UInt8.ofNat n := by
  rw [UInt8.lt_iff_toNat_lt, UInt8.toNat_ofNat', UInt8.toNat_ofNat', Nat.mod_eq_of_lt hn,
    Nat.mod_eq_of_lt (hlt.trans hn)]
  exact hlt

theorem continuation_append_lt {n v w : Nat} (hlt : v < w)
    (hsame : v / 64 ^ n = w / 64 ^ n) (a b : List UInt8) :
    continuation n v ++ a < continuation n w ++ b := by
  induction n with
  | zero => simp at hsame; omega
  | succ n ih =>
    rw [continuation, continuation, List.cons_append, List.cons_append, List.cons_lt_cons_iff]
    rw [Nat.pow_succ, ← Nat.div_div_eq_div_mul, ← Nat.div_div_eq_div_mul] at hsame
    rcases Nat.lt_or_eq_of_le (Nat.div_le_div_right (c := 64 ^ n) hlt.le) with hq | hq
    · left
      exact ofNat_lt_ofNat (by omega) (by omega)
    · right
      exact ⟨by rw [hq], ih hq⟩

theorem exists_utf8EncodeChar (c : Char) :
    ∃ n b, String.utf8EncodeChar c = UInt8.ofNat b :: continuation n c.toNat ∧
      (n = 0 ∧ c.toNat < 128 ∧ b = c.toNat / 64 ^ n ∨
        n = 1 ∧ 128 ≤ c.toNat ∧ c.toNat < 2048 ∧ b = c.toNat / 64 ^ n + 192 ∨
        n = 2 ∧ 2048 ≤ c.toNat ∧ c.toNat < 65536 ∧ b = c.toNat / 64 ^ n + 224 ∨
        n = 3 ∧ 65536 ≤ c.toNat ∧ c.toNat < 0x110000 ∧ b = c.toNat / 64 ^ n + 240) := by
  -- The first byte tells how many others there are, and holds the first digit.
  have hc : c.val.toNat < 0x110000 := by
    have := c.valid
    simp only [UInt32.isValidChar, Nat.isValidChar] at this
    omega
  rw [String.utf8EncodeChar]
  unfold Char.toNat
  generalize c.val.toNat = v at *
  split
  · exact ⟨0, v, rfl, by omega⟩
  · split
    · refine ⟨1, v / 64 + 192, ?_, by omega⟩
      rw [Nat.mod_eq_of_lt (by omega)]
      simp [continuation]
    · split
      · refine ⟨2, v / 4096 + 224, ?_, by omega⟩
        rw [Nat.mod_eq_of_lt (by omega)]
        simp [continuation]
      · refine ⟨3, v / 262144 + 240, ?_, by omega⟩
        rw [Nat.mod_eq_of_lt (by omega)]
        simp [continuation]

theorem utf8EncodeChar_append_lt {c d : Char} (h : c < d) (a b : List UInt8) :
    String.utf8EncodeChar c ++ a < String.utf8EncodeChar d ++ b := by
  have hlt : c.toNat < d.toNat := h
  obtain ⟨n, x, hc, hn⟩ := exists_utf8EncodeChar c
  obtain ⟨m, y, hd, hm⟩ := exists_utf8EncodeChar d
  rw [hc, hd, List.cons_append, List.cons_append, List.cons_lt_cons_iff]
  by_cases hxy : x < y
  · left
    apply ofNat_lt_ofNat hxy
    rcases hm with ⟨rfl, hm⟩ | ⟨rfl, hm⟩ | ⟨rfl, hm⟩ | ⟨rfl, hm⟩ <;> omega
  · right
    -- More bytes would make the first one greater.
    obtain ⟨rfl, rfl, hq⟩ : n = m ∧ x = y ∧ c.toNat / 64 ^ n = d.toNat / 64 ^ n := by
      rcases hn with ⟨rfl, hn⟩ | ⟨rfl, hn⟩ | ⟨rfl, hn⟩ | ⟨rfl, hn⟩ <;>
        rcases hm with ⟨rfl, hm⟩ | ⟨rfl, hm⟩ | ⟨rfl, hm⟩ | ⟨rfl, hm⟩ <;> omega
    exact ⟨rfl, continuation_append_lt hlt hq a b⟩

/-! ## Texts -/

theorem flatMap_utf8EncodeChar_lt {a b : List Char} (h : a < b) :
    a.flatMap String.utf8EncodeChar < b.flatMap String.utf8EncodeChar := by
  induction a generalizing b with
  | nil =>
    cases b with
    | nil => simp at h
    | cons d rest =>
      obtain ⟨x, xs, hx⟩ := List.exists_cons_of_ne_nil (String.utf8EncodeChar_ne_nil (c := d))
      simp [hx]
  | cons c rest ih =>
    cases b with
    | nil => simp at h
    | cons d rest' =>
      rw [List.flatMap_cons, List.flatMap_cons]
      rcases List.cons_lt_cons_iff.mp h with hlt | ⟨rfl, hrest⟩
      · exact utf8EncodeChar_append_lt hlt _ _
      · exact List.append_left_lt (ih hrest)

theorem le_iff_utf8Bytes (a b : String) : a ≤ b ↔ utf8Bytes a ≤ utf8Bytes b := by
  rw [← not_lt, ← List.not_lt, utf8Bytes_eq, utf8Bytes_eq, String.lt_iff, not_iff_not]
  refine ⟨flatMap_utf8EncodeChar_lt, fun h => ?_⟩
  rcases lt_trichotomy b.toList a.toList with hlt | heq | hgt
  · exact hlt
  · rw [heq] at h
    exact absurd h (List.lt_irrefl _)
  · exact absurd h (List.lt_asymm (flatMap_utf8EncodeChar_lt hgt))

end TemplateLint.Text
