import TemplateLint.Proofs.Mending

/-!
# Renamed tags

Tags may get other names if a reader tells them apart as before: which close tag goes with which
open tag, and which elements are void. Then the markup stays readable as it is (`Readable.renamed`).
Which elements hold raw text need not be said, since lowercasing never brings their names about.
-/

namespace TemplateLint.Markup

open Text

/-- The old and new names of tags, by which they go together as before and none gets void. -/
structure Renaming where
  opened : List Char → List Char → Prop
  closed : List Char → List Char → Prop
  restyled : ∀ {a a' : List Char}, opened a a' ∨ closed a a' → RestyledName a a'
  pairs : ∀ {a a' b b' : List Char}, opened a a' → closed b b' →
    (asciiLower a' = asciiLower b' ↔ asciiLower a = asciiLower b)
  void : ∀ {a a' : List Char}, opened a a' → asciiLower a' ∈ voidNames → asciiLower a ∈ voidNames

def Renaming.none : Renaming where
  opened := Eq
  closed := Eq
  restyled h := Or.inl (h.elim Eq.symm Eq.symm)
  pairs ha hb := by rw [ha, hb]
  void ha hvoid := by rwa [ha]

theorem RestyledName.asciiLower_of_letters {name name' : List Char} (h : RestyledName name name')
    (hname : ∀ c ∈ Text.asciiLower name, isAsciiLetter c = true) :
    Text.asciiLower name' = Text.asciiLower name := by
  refine h.asciiLower (isPlain_of_ascii fun c hc => ?_)
  exact ascii_of_toLower (hname _ (List.mem_map_of_mem hc))

theorem isAsciiLetter_voidNames : ∀ name ∈ voidNames, ∀ c ∈ name, isAsciiLetter c = true := by
  have hcheck : (voidNames.all fun name => name.all isAsciiLetter) = true := by decide
  simpa only [List.all_eq_true] using hcheck

theorem letters_rawTextNames :
    ∀ name ∈ rawTextNames, ∀ c ∈ name, isAsciiLetter c = true ∧ c ≠ 'k' := by
  have hcheck : (rawTextNames.all fun name => name.all fun c => isAsciiLetter c && c != 'k') =
      true := by decide
  simpa only [List.all_eq_true, Bool.and_eq_true, bne_iff_ne] using hcheck

namespace Renaming

variable {ρ : Renaming} {a a' b b' : List Char}

theorem mem_voidNames_iff (h : ρ.opened a a') :
    asciiLower a' ∈ voidNames ↔ asciiLower a ∈ voidNames := by
  refine ⟨ρ.void h, fun hvoid => ?_⟩
  rwa [(ρ.restyled (Or.inl h)).asciiLower_of_letters (isAsciiLetter_voidNames _ hvoid)]

theorem asciiLower_of_raw (h : ρ.opened a a')
    (hraw : asciiLower a' ∈ rawTextNames ∨ asciiLower a ∈ rawTextNames) :
    asciiLower a' = asciiLower a := by
  have hrestyled := ρ.restyled (Or.inl h)
  rcases hraw with hraw | hraw
  · rcases hrestyled with rfl | rfl
    · rfl
    · exact (asciiLower_of_lowerFrom (letters_rawTextNames _ hraw) rfl).symm
  · exact hrestyled.asciiLower_of_letters fun c hc => (letters_rawTextNames _ hraw c hc).1

/-! ## Open elements -/

/-- What an element was and is known by. -/
def Letters (ρ : Renaming) (w w' : List Char) : Prop :=
  ∃ a a', ρ.opened a a' ∧ w = asciiLower a ∧ w' = asciiLower a'

variable {w w' : List Char} {open_ open' : Nesting}

theorem Letters.eq_iff (h : ρ.Letters w w') (hb : ρ.closed b b') :
    w' = asciiLower b' ↔ w = asciiLower b := by
  obtain ⟨a, a', ha, rfl, rfl⟩ := h
  exact ρ.pairs ha hb

theorem rawText?_eq (h : List.Forall₂ ρ.Letters open_ open') : open'.rawText? = open_.rawText? := by
  cases h with
  | nil => rfl
  | cons hw _ =>
    obtain ⟨a, a', ha, rfl, rfl⟩ := hw
    simp only [Nesting.rawText?, List.contains_iff_mem]
    by_cases hraw : asciiLower a' ∈ rawTextNames ∨ asciiLower a ∈ rawTextNames
    · rw [asciiLower_of_raw ha hraw]
    · rw [not_or] at hraw
      rw [if_neg hraw.1, if_neg hraw.2]

theorem forall₂_close (h : List.Forall₂ ρ.Letters open_ open') (hb : ρ.closed b b') :
    List.Forall₂ ρ.Letters (open_.close (asciiLower b)) (open'.close (asciiLower b')) := by
  have hdrop : List.Forall₂ ρ.Letters (open_.dropWhile (· != asciiLower b))
      (open'.dropWhile (· != asciiLower b')) := by
    induction h with
    | nil => exact .nil
    | cons hw hrest ih =>
      rw [List.dropWhile_cons, List.dropWhile_cons]
      simp only [bne_iff_ne, ne_eq, hw.eq_iff hb]
      split
      · exact ih
      · exact .cons hw hrest
  unfold Nesting.close
  generalize open_.dropWhile (· != asciiLower b) = left at hdrop
  generalize open'.dropWhile (· != asciiLower b') = left' at hdrop
  cases hdrop with
  | nil => exact h
  | cons _ hrest => exact hrest

end Renaming

/-! ## Pieces -/

/-- The piece is the same, with the other name if it is a tag. -/
inductive Piece.Renamed (ρ : Renaming) : Piece → Piece → Prop where
  | openTag {t : OpenTag} {name : List Char} (h : ρ.opened t.name name) :
      Renamed ρ (.openTag t) (.openTag { t with name })
  | closeTag {t : CloseTag} {name : List Char} (h : ρ.closed t.name name) :
      Renamed ρ (.closeTag t) (.closeTag { t with name })
  | same {p : Piece} (hopen : ∀ t, p ≠ .openTag t) (hclose : ∀ t, p ≠ .closeTag t) : Renamed ρ p p

theorem Piece.renamed_none (p : Piece) : p.Renamed .none p := by
  cases p with
  | openTag t => exact .openTag rfl
  | closeTag t => exact .closeTag rfl
  | _ => exact .same (by simp) (by simp)

theorem forall₂_renamed_none (ps : List Piece) : List.Forall₂ (Piece.Renamed .none) ps ps :=
  List.forall₂_same.mpr fun p _ => p.renamed_none

theorem OpenTag.isVoid_renamed {ρ : Renaming} {t : OpenTag} {name : List Char}
    (h : ρ.opened t.name name) :
    OpenTag.isVoid { t with name } = t.isVoid := by
  rw [isVoid, isVoid, Bool.eq_iff_iff, List.contains_iff_mem, List.contains_iff_mem]
  exact Renaming.mem_voidNames_iff h

theorem OpenTag.opens_renamed {ρ : Renaming} {t : OpenTag} {name : List Char}
    (h : ρ.opened t.name name) :
    OpenTag.opens { t with name } = t.opens := by
  rw [opens, opens, isVoid_renamed h]

namespace Piece.Renamed

variable {ρ : Renaming} {p p' : Piece} {open_ open' : Nesting}

theorem restyled (h : p.Renamed ρ p') : p.Restyled p' := by
  cases h with
  | openTag h =>
    exact .openTag ⟨ρ.restyled (Or.inl h), List.forall₂_same.mpr fun _ _ => .same _, rfl⟩
  | closeTag h => exact .closeTag ⟨ρ.restyled (Or.inr h), rfl⟩
  | same => exact .same _

theorem after (h : p.Renamed ρ p') (hopen : List.Forall₂ ρ.Letters open_ open') :
    List.Forall₂ ρ.Letters (open_.after p) (open'.after p') := by
  cases h with
  | @openTag t name h =>
    simp only [Nesting.after, OpenTag.opens_renamed h]
    split
    · exact .cons ⟨_, _, h, rfl, rfl⟩ hopen
    · exact hopen
  | closeTag h => exact Renaming.forall₂_close hopen h
  | same hopenTag hcloseTag =>
    cases p with
    | openTag t => exact absurd rfl (hopenTag t)
    | closeTag t => exact absurd rfl (hcloseTag t)
    | _ => exact hopen

end Piece.Renamed

theorem Readable.renamed {ρ : Renaming} {open_ open' : Nesting} {ps ps' : List Piece}
    (h : Readable open_ ps) (hr : List.Forall₂ (Piece.Renamed ρ) ps ps')
    (hopen : List.Forall₂ ρ.Letters open_ open') : Readable open' ps' := by
  induction hr generalizing open_ open' with
  | nil => exact h
  | cons hpiece hrest ih =>
    obtain ⟨hstands, hlater⟩ := h
    refine ⟨hstands.restyled (Renaming.rawText?_eq hopen) hpiece.restyled
      (hrest.imp fun _ _ hp => hp.restyled), ?_⟩
    exact ih hlater (hpiece.after hopen)

end TemplateLint.Markup
