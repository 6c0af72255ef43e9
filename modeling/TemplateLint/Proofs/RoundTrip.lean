import TemplateLint.Document.Parse
import TemplateLint.Proofs.Elements

/-!
# Round trips

A template that can be parsed is printed as it was, whatever it holds (`print_parse`): the reader
puts every character into one piece, and the layout every piece into one place of the tree.
-/

namespace TemplateLint

open Markup

variable {source : String} {keep : Bool} {d : Document}

theorem exists_readPieces_of_parse (h : Document.parse source keep = .ok d) :
    ∃ ps, readPieces [] source.toList = .ok ps ∧ d = .ofPieces keep ps := by
  unfold Document.parse at h
  split at h
  · cases h
  · rename_i ps hread
    cases h
    exact ⟨ps, hread, rfl⟩

theorem exists_pieces_of_parse (h : Document.parse source keep = .ok d) :
    ∃ ps, d = .ofPieces keep ps ∧ ps.flatMap Piece.source = source.toList := by
  obtain ⟨ps, hread, rfl⟩ := exists_readPieces_of_parse h
  exact ⟨ps, rfl, source_readPieces hread⟩

theorem Document.parse_of_readPieces {ps : List Piece}
    (h : readPieces [] source.toList = .ok ps) (keep : Bool) :
    Document.parse source keep = .ok (.ofPieces keep ps) := by
  rw [Document.parse, h]

theorem forest_of_parse (h : Document.parse source keep = .ok d) : d.Forest [d.root] := by
  obtain ⟨ps, rfl, -⟩ := exists_pieces_of_parse h
  exact (sound_ofPieces keep ps).1

/-- With blanks kept, every node of a parsed document is a run over its location. -/
theorem exact_of_parse (h : Document.parse source true = .ok d) :
    d.Exact ∧ d.location? d.root = some ⟨.start, Position.start.advance source.toList⟩ ∧
      d.text d.root = source.toList := by
  obtain ⟨ps, rfl, hsource⟩ := exists_pieces_of_parse h
  rw [← hsource]
  exact (sound_ofPieces true ps).2 rfl

theorem exists_ok_of_any {ε α : Type} {e : Except ε α} {p : α → Bool}
    (h : e.toOption.any p = true) :
    ∃ a, e = .ok a ∧ p a = true := by
  cases e with
  | error e => simp [Except.toOption] at h
  | ok a => exact ⟨a, rfl, by simpa [Except.toOption] using h⟩

/-- Printing a parsed document gives back its source. -/
theorem print_parse (h : Document.parse source true = .ok d) : d.print = source := by
  rw [Document.print, (exact_of_parse h).2.2, String.ofList_toList]

/-- Stray marks, an unclosed element, a stray close tag and a trimmed tag of embedded Ruby all
stay. -/
theorem print_parse_stray_marks : ∃ d,
    Document.parse "<p / =x <é='<%= a -%>'>\n</b ><script>é</a></SCRIPT>" true = .ok d ∧
      d.print = "<p / =x <é='<%= a -%>'>\n</b ><script>é</a></SCRIPT>" := by
  have hok :
      (Document.parse "<p / =x <é='<%= a -%>'>\n</b ><script>é</a></SCRIPT>" true).toOption.any
      (fun _ => true) = true := by
    decide +kernel
  obtain ⟨d, hd, -⟩ := exists_ok_of_any hok
  exact ⟨d, hd, print_parse hd⟩

end TemplateLint
