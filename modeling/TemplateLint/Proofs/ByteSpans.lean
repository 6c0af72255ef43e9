import TemplateLint.Proofs.Place

/-!
# Positions and bytes

A position need not be one where a character stands. Past the end of its line it counts as that end,
and a line that is missing counts as the end of the text. Main statement: the byte offset of a
position is the length of the longest prefix that ends there or before, and a diagnostic marks whole
characters of its text, wherever its offense says that it is (`byteOffset_clamps`).
-/

namespace TemplateLint

/-- `p` is the longest prefix of `text` that ends at `target` or before it, when `here` is the
position of `text`. -/
structure LongestTo (here target : Position) (text p : List Char) : Prop where
  isPrefix : p <+: text
  le : (here.advance p).le target = true
  longest : ∀ q, q <+: text → (here.advance q).le target = true → q <+: p

variable {here target : Position} {text p : List Char} {source : String}

/-! ## The scan for a position -/

theorem scan_goes_iff (h : here.le target = true) (c : Char) :
    ¬(here = target ∨ c = '\n' ∧ here.line = target.line) ↔ (here.next c).le target = true := by
  obtain ⟨line, column⟩ := here
  obtain ⟨line', column'⟩ := target
  simp only [Position.le_iff] at h
  simp only [Position.next_le_iff, Position.mk.injEq]
  by_cases hc : c = '\n'
  · simp only [hc, true_and, ne_eq, not_true_eq_false, false_and, or_false]
    omega
  · simp only [hc, false_and, or_false, ne_eq, not_false_eq_true, true_and]
    omega

theorem LongestTo.nil (h : here.le target = true)
    (hstop : ∀ c, text.head? = some c → ¬(here.next c).le target = true) :
    LongestTo here target text [] := by
  refine ⟨List.nil_prefix, h, fun q hq hle => ?_⟩
  cases q with
  | nil => exact List.nil_prefix
  | cons c rest =>
    obtain ⟨later, rfl⟩ := hq
    exact absurd (Position.le_trans (Position.le_advance _ rest) hle) (hstop c rfl)

theorem LongestTo.cons {c : Char} (h : LongestTo (here.next c) target text p) :
    LongestTo here target (c :: text) (c :: p) := by
  refine ⟨List.prefix_cons_inj c |>.mpr h.isPrefix, h.le, fun q hq hend => ?_⟩
  cases q with
  | nil => exact List.nil_prefix
  | cons x rest =>
    obtain ⟨rfl, hrest⟩ := List.cons_prefix_cons.mp hq
    exact List.prefix_cons_inj x |>.mpr (h.longest rest hrest hend)

theorem exists_longestTo (h : here.le target = true) (text : List Char) :
    ∃ p, LongestTo here target text p ∧ bytesBefore here target text = utf8Length p := by
  induction text generalizing here with
  | nil => exact ⟨[], .nil h (by simp), rfl⟩
  | cons c rest ih =>
    rw [bytesBefore]
    split
    · rename_i hstop
      refine ⟨[], .nil h fun x hx => ?_, rfl⟩
      cases hx
      exact fun hnext => (scan_goes_iff h c).mpr hnext hstop
    · rename_i hgo
      obtain ⟨p, hp, hbytes⟩ := ih ((scan_goes_iff h c).mp hgo)
      exact ⟨c :: p, hp.cons, by rw [hbytes, utf8Length]⟩

theorem exists_bytesBefore_eq (here target : Position) (text : List Char) :
    ∃ p, p <+: text ∧ bytesBefore here target text = utf8Length p := by
  induction text generalizing here with
  | nil => exact ⟨[], List.nil_prefix, rfl⟩
  | cons c rest ih =>
    rw [bytesBefore]
    split
    · exact ⟨[], List.nil_prefix, rfl⟩
    · obtain ⟨p, hp, hbytes⟩ := ih (here.next c)
      exact ⟨c :: p, List.prefix_cons_inj c |>.mpr hp, by rw [hbytes, utf8Length]⟩

/-! ## Borders of characters -/

theorem utf8Length_eq_utf8ByteSize (text : List Char) :
    utf8Length text = (String.ofList text).utf8ByteSize := by
  rw [utf8Length_eq_size, ← String.size_toByteArray, String.toByteArray_ofList]

theorem utf8Length_le_of_prefix {q : List Char} (h : q <+: p) : utf8Length q ≤ utf8Length p := by
  obtain ⟨later, rfl⟩ := h
  rw [utf8Length_append]
  omega

theorem isValid_utf8Length (h : p <+: source.toList) :
    String.Pos.Raw.IsValid source ⟨utf8Length p⟩ := by
  obtain ⟨later, hlater⟩ := h
  rw [String.Pos.Raw.isValid_iff_exists_append]
  refine ⟨String.ofList p, String.ofList later, ?_, ?_⟩
  · rw [← String.ofList_append, hlater, String.ofList_toList]
  · rw [utf8Length_eq_utf8ByteSize]
    rfl

theorem isValid_byteOffset (source : String) (target : Position) :
    String.Pos.Raw.IsValid source ⟨byteOffset source target⟩ := by
  obtain ⟨p, hp, hbytes⟩ := exists_bytesBefore_eq .start target source.toList
  rw [byteOffset, hbytes]
  exact isValid_utf8Length hp

/-! ## Offsets and spans -/

theorem Position.start_le (h : 1 ≤ target.line) : Position.start.le target = true := by
  simp only [le_iff, start]
  omega

theorem byteOffset_mono {target' : Position} (hline : 1 ≤ target.line)
    (h : target.le target' = true) :
    byteOffset source target ≤ byteOffset source target' := by
  have hstart := Position.start_le hline
  obtain ⟨p, hp, hbytes⟩ := exists_longestTo hstart source.toList
  obtain ⟨p', hp', hbytes'⟩ := exists_longestTo (Position.le_trans hstart h) source.toList
  rw [byteOffset, byteOffset, hbytes, hbytes']
  exact utf8Length_le_of_prefix (hp'.longest p hp.isPrefix (Position.le_trans hp.le h))

theorem Diagnostic.stop_label (o : Offense) (source : String) :
    (ofOffense o source).label.offset + (ofOffense o source).label.length =
      max (byteOffset source o.location.start) (byteOffset source o.location.stop) := by
  change byteOffset source o.location.start +
    (byteOffset source o.location.stop - byteOffset source o.location.start) = _
  omega

/-- The byte offset of a position is the length of the longest prefix that ends there or before. -/
theorem byteOffset_clamps (source : String) :
    (∀ pos : Position, 1 ≤ pos.line → ∃ p, LongestTo .start pos source.toList p ∧
      byteOffset source pos = (String.ofList p).utf8ByteSize) ∧
    (∀ p, p <+: source.toList →
      byteOffset source (Position.start.advance p) = (String.ofList p).utf8ByteSize) ∧
    (∀ pos pos' : Position, 1 ≤ pos.line → pos.le pos' = true →
      byteOffset source pos ≤ byteOffset source pos') ∧
    ∀ o : Offense, let label := (Diagnostic.ofOffense o source).label
      label.offset = byteOffset source o.location.start ∧
      label.offset + label.length = max label.offset (byteOffset source o.location.stop) ∧
      label.offset + label.length ≤ source.utf8ByteSize ∧
      String.Pos.Raw.IsValid source ⟨label.offset⟩ ∧
      String.Pos.Raw.IsValid source ⟨label.offset + label.length⟩ := by
  refine ⟨fun pos hpos => ?_, fun p hp => ?_, fun pos pos' => byteOffset_mono, fun o => ?_⟩
  · obtain ⟨p, hp, hbytes⟩ := exists_longestTo (Position.start_le hpos) source.toList
    exact ⟨p, hp, by rw [byteOffset, hbytes, utf8Length_eq_utf8ByteSize]⟩
  · obtain ⟨later, hlater⟩ := hp
    rw [byteOffset, ← hlater, bytesBefore_advance, utf8Length_eq_utf8ByteSize]
  · have hstop := Diagnostic.stop_label o source
    have hvalid : String.Pos.Raw.IsValid source
        ⟨(Diagnostic.ofOffense o source).label.offset +
          (Diagnostic.ofOffense o source).label.length⟩ := by
      rw [hstop]
      rcases Nat.le_total (byteOffset source o.location.start)
        (byteOffset source o.location.stop) with hle | hle
      · rw [Nat.max_eq_right hle]
        exact isValid_byteOffset source _
      · rw [Nat.max_eq_left hle]
        exact isValid_byteOffset source _
    exact ⟨rfl, hstop, hvalid.le_rawEndPos, isValid_byteOffset source _, hvalid⟩

/-- A column past the end of its line, and a location that ends on a line before the first one. -/
theorem byteOffset_clamps_long_column :
    (∃ p, LongestTo .start ⟨1, 9⟩ "aé\nb".toList p ∧
      byteOffset "aé\nb" ⟨1, 9⟩ = (String.ofList p).utf8ByteSize) ∧
      byteOffset "aé\nb" ⟨1, 9⟩ = 3 ∧
      byteOffset "aé\nb" (Position.start.advance ['a', 'é']) =
        (String.ofList ['a', 'é']).utf8ByteSize ∧
      byteOffset "aé\nb" ⟨1, 9⟩ ≤ byteOffset "aé\nb" ⟨2, 0⟩ ∧
      String.Pos.Raw.IsValid "aé\nb"
        ⟨(Diagnostic.ofOffense ⟨"r", "m", .error, ⟨⟨1, 1⟩, ⟨0, 7⟩⟩, none⟩ "aé\nb").label.offset⟩ :=
  have h := byteOffset_clamps "aé\nb"
  ⟨h.1 ⟨1, 9⟩ (by decide), by decide +kernel, h.2.1 ['a', 'é'] (by decide +kernel),
    h.2.2.1 ⟨1, 9⟩ ⟨2, 0⟩ (by decide) (by decide),
    (h.2.2.2 ⟨"r", "m", .error, ⟨⟨1, 1⟩, ⟨0, 7⟩⟩, none⟩).2.2.2.1⟩

end TemplateLint
