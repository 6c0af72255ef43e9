/-!
# Cutting text

Splits of a list of characters at a mark, at the first place with a property, and at every comma.
Nothing is lost: the parts join to the whole.
-/

namespace TemplateLint.Text

/-! ## At a mark -/

/-- The text before the first occurrence of `mark`, and the text after it. -/
def cut (mark : List Char) : List Char → Option (List Char × List Char)
  | [] => none
  | c :: rest =>
    if mark.isPrefixOf (c :: rest) then some ([], (c :: rest).drop mark.length)
    else (cut mark rest).map fun (before, after) => (c :: before, after)

theorem append_of_cut {mark s before after : List Char} (h : cut mark s = some (before, after)) :
    before ++ mark ++ after = s := by
  induction s generalizing before with
  | nil => simp [cut] at h
  | cons c rest ih =>
    rw [cut] at h
    split at h
    · rename_i hp
      obtain ⟨tail, ht⟩ := List.isPrefixOf_iff_prefix.mp hp
      simp only [Option.some.injEq, Prod.mk.injEq] at h
      obtain ⟨rfl, rfl⟩ := h
      rw [← ht]
      simp
    · obtain ⟨⟨b, a⟩, hb, he⟩ := Option.map_eq_some_iff.mp h
      simp only [Prod.mk.injEq] at he
      obtain ⟨rfl, rfl⟩ := he
      simpa using ih hb

/-! ## At the first place with a property -/

/-- The longest start of the text at none of whose places `stop` holds of the text from there on. -/
def spanUntil (stop : List Char → Bool) : List Char → List Char × List Char
  | [] => ([], [])
  | c :: rest =>
    if stop (c :: rest) then ([], c :: rest)
    else ((c :: (spanUntil stop rest).1), (spanUntil stop rest).2)

@[simp] theorem spanUntil_append (stop : List Char → Bool) (s : List Char) :
    (spanUntil stop s).1 ++ (spanUntil stop s).2 = s := by
  induction s with
  | nil => rfl
  | cons c rest ih =>
    rw [spanUntil]
    split
    · rfl
    · simpa using ih

theorem spanUntil_snd_length_le (stop : List Char → Bool) (s : List Char) :
    (spanUntil stop s).2.length ≤ s.length := by
  have h := congrArg List.length (spanUntil_append stop s)
  simp only [List.length_append] at h
  omega

/-- A span is empty only where it stops at once. -/
theorem spanUntil_fst_ne_nil {stop : List Char → Bool} {c : Char} {rest : List Char}
    (h : stop (c :: rest) = false) : (spanUntil stop (c :: rest)).1 ≠ [] := by
  simp [spanUntil, h]

/-! ## At every separator -/

/-- The pieces between the separators; a text without one is its only piece. -/
def splitAt (separator : Char) : List Char → List (List Char)
  | [] => [[]]
  | c :: rest =>
    if c = separator then [] :: splitAt separator rest
    else match splitAt separator rest with
      | [] => [[c]]
      | piece :: pieces => (c :: piece) :: pieces

end TemplateLint.Text
