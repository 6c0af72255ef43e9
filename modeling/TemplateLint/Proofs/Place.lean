import TemplateLint.Diagnostic

/-!
# Places

The order of positions, and the way back from a position to a number of bytes. Main statement: the
bytes between the positions before and after a stretch of a text are that stretch
(`extract_between`).
-/

namespace TemplateLint

/-! ## The order of positions -/

namespace Position

theorem le_iff (p q : Position) :
    p.le q = true ↔ p.line < q.line ∨ p.line = q.line ∧ p.column ≤ q.column := by
  simp [le]

theorem le_refl (p : Position) : p.le p = true := by
  rw [le_iff]; omega

theorem le_trans {p q r : Position} (h : p.le q = true) (h' : q.le r = true) : p.le r = true := by
  rw [le_iff] at *; omega

theorem le_antisymm {p q : Position} (h : p.le q = true) (h' : q.le p = true) : p = q := by
  obtain ⟨line, column⟩ := p
  obtain ⟨line', column'⟩ := q
  simp only [le_iff] at h h'
  simp only [mk.injEq]
  omega

theorem next_le_iff (p q : Position) (c : Char) :
    (p.next c).le q = true ↔
      p.line < q.line ∨ c ≠ '\n' ∧ p.line = q.line ∧ p.column < q.column := by
  rw [le_iff, next]
  split
  · rename_i hc
    simp only [hc, ne_eq, not_true_eq_false, false_and, or_false, Nat.zero_le, and_true]
    omega
  · rename_i hc
    simp only [ne_eq, hc, not_false_eq_true, true_and]
    omega

theorem le_next (p : Position) (c : Char) : p.le (p.next c) = true := by
  have h := (next_le_iff p (p.next c) c).mp (le_refl _)
  rw [le_iff]; omega

theorem le_advance (p : Position) (text : List Char) : p.le (p.advance text) = true := by
  induction text generalizing p with
  | nil => exact le_refl p
  | cons c rest ih => exact le_trans (le_next p c) (ih (p.next c))

end Position

/-! ## Bytes -/

theorem utf8Length_append (a b : List Char) :
    utf8Length (a ++ b) = utf8Length a + utf8Length b := by
  induction a with
  | nil => simp [utf8Length]
  | cons c rest ih => simp only [List.cons_append, utf8Length, ih]; omega

theorem utf8Length_eq_size (text : List Char) : utf8Length text = text.utf8Encode.size := by
  induction text with
  | nil => simp [utf8Length]
  | cons c rest ih =>
    rw [List.utf8Encode_cons, ByteArray.size_append, utf8Length, ih, List.utf8Encode_singleton]
    simp

theorem bytesBefore_advance (p : Position) (a b : List Char) :
    bytesBefore p (p.advance a) (a ++ b) = utf8Length a := by
  induction a generalizing p with
  | nil => cases b <;> simp [bytesBefore, utf8Length]
  | cons c rest ih =>
    have hle := (Position.next_le_iff p _ c).mp (Position.le_advance (p.next c) rest)
    have hne :
        ¬(p = (p.next c).advance rest ∨ c = '\n' ∧ p.line = ((p.next c).advance rest).line) := by
      rintro (he | ⟨hc, hl⟩)
      · rw [← he] at hle; omega
      · rcases hle with h | h
        · omega
        · exact h.1 hc
    rw [List.cons_append, Position.advance_cons, bytesBefore, if_neg hne, ih, utf8Length]

theorem eq_of_advance_eq {p : Position} {a b a' b' : List Char} (h : a ++ b = a' ++ b')
    (hp : p.advance a = p.advance a') : a = a' := by
  have hlength : utf8Length a = utf8Length a' := by
    rw [← bytesBefore_advance p a b, h, hp, bytesBefore_advance]
  have hnil {more : List Char} (hmore : utf8Length more = 0) : more = [] := by
    cases more with
    | nil => rfl
    | cons c rest =>
      rw [utf8Length] at hmore
      have := c.utf8Size_pos
      omega
  rcases List.append_eq_append_iff.mp h with ⟨more, rfl, -⟩ | ⟨more, rfl, -⟩
  · rw [utf8Length_append] at hlength
    have hmore : more = [] := hnil (by omega)
    rw [hmore, List.append_nil]
  · rw [utf8Length_append] at hlength
    have hmore : more = [] := hnil (by omega)
    rw [hmore, List.append_nil]

theorem byteOffset_advance (a b : List Char) :
    byteOffset (String.ofList (a ++ b)) (Position.start.advance a) = utf8Length a := by
  rw [byteOffset, String.toList_ofList, bytesBefore_advance]

theorem extract_between (a t b : List Char) :
    (String.ofList (a ++ t ++ b)).toByteArray.extract
        (byteOffset (String.ofList (a ++ t ++ b)) (Position.start.advance a))
        (byteOffset (String.ofList (a ++ t ++ b)) (Position.start.advance (a ++ t))) =
      (String.ofList t).toByteArray := by
  have hstart : byteOffset (String.ofList (a ++ t ++ b)) (Position.start.advance a) =
      utf8Length a := by
    rw [List.append_assoc, byteOffset_advance]
  rw [hstart, byteOffset_advance, utf8Length_append, utf8Length_eq_size, utf8Length_eq_size,
    String.toByteArray_ofList, String.toByteArray_ofList, List.utf8Encode_append,
    List.utf8Encode_append, ByteArray.append_assoc, ← Nat.add_zero a.utf8Encode.size, Nat.add_assoc,
    ByteArray.extract_append_size_add, Nat.zero_add, ByteArray.extract_append_eq_left rfl]

end TemplateLint
