import Mathlib.Data.List.DropRight
import TemplateLint.Proofs.DirectivePlaces

/-!
# Names in directives

A directive is read from the content of a comment. Main statement: its names are the pieces between
the commas behind the keyword, trimmed, but for those that are blank, and each of them stands in the
source at the place that the directive gives for it (`directive_names`).
-/

namespace TemplateLint

open Text

/-! ## Pieces -/

theorem Text.splitAt_eq_splitOn (separator : Char) (s : List Char) :
    splitAt separator s = s.splitOn separator := by
  rw [List.splitOn_eq_splitOnP]
  induction s with
  | nil => rfl
  | cons c rest ih =>
    rw [splitAt, List.splitOnP_cons_eq_if_modifyHead, ih]
    simp only [beq_iff_eq]
    split
    · rfl
    · cases hpieces : rest.splitOnP (· == separator) with
      | nil => exact absurd hpieces (List.splitOnP_ne_nil _ _)
      | cons piece pieces => rfl

theorem Text.trim_eq_rdropWhile (s : List Char) :
    trim s = (s.dropWhile isBlank).rdropWhile isBlank := rfl

theorem Text.trim_eq_nil_iff {s : List Char} : trim s = [] ↔ ∀ c ∈ s, isBlank c = true := by
  rw [trim_eq_rdropWhile, List.rdropWhile_eq_nil_iff]
  constructor
  · intro h c hc
    rw [← s.takeWhile_append_dropWhile (p := isBlank)] at hc
    rcases List.mem_append.mp hc with hc | hc
    · exact List.mem_takeWhile_imp hc
    · exact h c hc
  · intro h c hc
    exact h c ((s.dropWhile_sublist isBlank).mem hc)

theorem Text.splitAt_of_blank {s : List Char} (h : ∀ c ∈ s, isBlank c = true) :
    splitAt ',' s = [s] := by
  rw [splitAt_eq_splitOn]
  apply List.splitOn_eq_singleton
  intro hcomma
  exact absurd (h ',' hcomma) (by decide)

/-! ## What a directive says -/

/-- The text of a comment, be it one of the markup or of embedded Ruby. -/
def Content.commentText? : Content → Option Token
  | erb opening content closing =>
    if (erb opening content closing).isErbComment then some content else none
  | comment _ content _ => some content
  | _ => none

namespace Directive

/-- The directive says what `list` says, which follows its keyword. -/
structure Means (d : Directive) (list : List Char) : Prop where
  matched_iff : d.matched = true ↔ ∀ c ∈ list.head?, isBlank c = true
  unmatched : d.matched = false → d.names = [] ∧ d.entries = []
  names_eq : d.matched = true → d.names = (((list.splitOn ',').map fun piece =>
    (piece.dropWhile isBlank).rdropWhile isBlank).filter (· ≠ [])).map String.ofList
  entries_eq : d.entries.map (·.name) = d.names
  hasBlankEntry_iff : d.matched = true → (d.hasBlankEntry = true ↔
    (∃ c ∈ list, isBlank c = false) ∧ ∃ piece ∈ list.splitOn ',', ∀ c ∈ piece, isBlank c = true)

variable {id : NodeId} {location : Location} {content : Token} {d : Directive}

theorem means_blank {list : List Char} (h : ∀ c ∈ list, isBlank c = true) (id : NodeId)
    (location contentLocation : Location) :
    Means ⟨id, location, contentLocation, true, none, [], false⟩ list := by
  refine ⟨?_, by simp, fun _ => ?_, rfl, fun _ => ?_⟩
  · exact iff_of_true rfl fun c hc => h c (List.mem_of_mem_head? hc)
  · -- There is one piece, and nothing is left of it.
    rw [← splitAt_eq_splitOn, splitAt_of_blank h, List.map_singleton, ← trim_eq_rdropWhile,
      trim_eq_nil_iff.mpr h]
    rfl
  · simp +contextual [h]

theorem means_ofList (id : NodeId) (location contentLocation : Location)
    (here : Position) (list : List Char) :
    (ofList id location contentLocation here list).Means list := by
  by_cases hall : ∀ c ∈ list, isBlank c = true
  · have hmatched : ofList id location contentLocation here list =
        ⟨id, location, contentLocation, true, none, [], false⟩ := by
      unfold ofList
      rw [trim_eq_nil_iff.mpr hall]
      cases list with
      | nil => rfl
      | cons c rest => simp [hall c List.mem_cons_self]
    rw [hmatched]
    exact means_blank hall id location contentLocation
  · have hrules : trim list ≠ [] := mt trim_eq_nil_iff.mp hall
    have hinked : ∃ c ∈ list, isBlank c = false := by simpa using hall
    cases list with
    | nil => simp at hall
    | cons c rest =>
      unfold ofList
      simp only [List.isEmpty_eq_false_iff.mpr hrules, Bool.not_false, Bool.and_true]
      by_cases hblank : isBlank c = true
      · rw [if_pos hblank]
        refine ⟨by simp, by simp [hblank], fun _ => ?_, rfl, fun _ => ?_⟩
        · rw [names, Entry.names_ofPieces, splitAt_eq_splitOn]
          congr 1
          apply List.filter_congr
          intro name _
          cases name <;> rfl
        · rw [← splitAt_eq_splitOn]
          simp only [List.any_eq_true, List.isEmpty_iff, trim_eq_nil_iff]
          exact ⟨fun h => ⟨hinked, h⟩, And.right⟩
      · rw [if_neg hblank]
        exact ⟨by simp, fun _ => ⟨rfl, rfl⟩, fun h => absurd h hblank, rfl,
          fun h => absurd h hblank⟩

theorem ofNode?_eq (id : NodeId) (n : Node) :
    ofNode? id n = n.content.commentText?.bind (ofComment? id n.location) := by
  obtain ⟨location, content⟩ := n
  cases content with
  | erb opening content closing =>
    simp only [ofNode?, Content.commentText?]
    split <;> rfl
  | _ => rfl

theorem inside_of_mem_entries (h : ofComment? id location content = some d) {e : Entry}
    (he : e ∈ d.entries) :
    ∃ before after, content.chars = before ++ e.name.toList ++ after ∧
      e.location = ⟨content.location.start.advance before,
        content.location.start.advance (before ++ e.name.toList)⟩ := by
  obtain ⟨-, -, blanks, list, hchars, hnil | hentries⟩ := ofComment?_spec h
  · simp [hnil] at he
  · rw [hentries] at he
    obtain ⟨-, before, after, hlist, hplace⟩ := Entry.inside_of_mem_splitAt he
    refine ⟨blanks ++ directiveKeyword.toList ++ before, after, ?_, ?_⟩
    · rw [hchars, hlist]
      simp
    · rw [hplace]
      simp

end Directive

/-! ## Directives of a document -/

namespace Document

variable {d : Document} {directive : Directive}

theorem exists_commentText_of_mem_directives (h : directive ∈ d.directives) :
    ∃ node content, d.get? directive.node = some node ∧ node.content.commentText? = some content ∧
      Directive.ofComment? directive.node node.location content = some directive := by
  obtain ⟨v, hv, hof⟩ := List.mem_filterMap.mp h
  rw [Directive.ofNode?_eq] at hof
  obtain ⟨content, hcontent, hof⟩ := Option.bind_eq_some_iff.mp hof
  obtain ⟨hid, -⟩ := Directive.ofComment?_spec hof
  rw [hid]
  exact ⟨v.node, content, get?_of_mem_visits hv, hcontent, hof⟩

end Document

theorem Content.mem_items_of_commentText? {c : Content} {content : Token}
    (h : c.commentText? = some content) :
    .token content ∈ c.items := by
  cases c with
  | erb opening text closing =>
    rw [commentText?, Option.ite_none_right_eq_some] at h
    simp [items, Option.some.inj h.2]
  | comment opening text closing => simp [items, Option.some.inj h]
  | _ => simp [commentText?] at h

/-- The bytes of the source at the place of a name are the name. -/
theorem extract_entry {source : String} {keep : Bool} {d : Document}
    (h : Document.parse source keep = .ok d) {directive : Directive} (hd : directive ∈ d.directives)
    {e : Entry} (he : e ∈ directive.entries) :
    source.toByteArray.extract (byteOffset source e.location.start)
      (byteOffset source e.location.stop) =
      e.name.toByteArray := by
  obtain ⟨ps, hps, rfl⟩ := exists_readPieces_of_parse h
  have hkept := Document.parse_of_readPieces hps true
  -- Names stand where they stand in the document with blanks, in which the locations are exact.
  obtain ⟨original, horiginal, hentries⟩ :
      ∃ original ∈ (Document.ofPieces true ps).directives, directive.entries =
        original.entries := by
    cases keep with
    | true => exact ⟨directive, hd, rfl⟩
    | false =>
      rw [Document.ofPieces_false, (Document.tidy_ofPieces ps).directives_shifted] at hd
      obtain ⟨original, horiginal, rfl⟩ := List.mem_map.mp hd
      exact ⟨original, horiginal, rfl⟩
  rw [hentries] at he
  obtain ⟨node, content, hget, hcontent, hof⟩ :=
    Document.exists_commentText_of_mem_directives horiginal
  obtain ⟨hexact, hloc, htext⟩ := exact_of_parse hkept
  have hf := forest_of_parse hkept
  obtain ⟨before, after, hsource, hplace⟩ := hexact.token_inside hf.grounded
    (hf.below_of_top_eq (Document.isLive_of_get? hget)) (by rw [hloc, htext]) hget
    (Content.mem_items_of_commentText? hcontent)
  obtain ⟨front, back, hchars, hentry⟩ := Directive.inside_of_mem_entries hof he
  have hsplit : source = String.ofList (before ++ front ++ e.name.toList ++ (back ++ after)) := by
    rw [← source.ofList_toList, ← htext, hsource, hchars]
    simp
  rw [hentry, hplace, ← Position.advance_append, ← Position.advance_append,
    ← List.append_assoc, hsplit, extract_between, String.ofList_toList]

/-- A directive says what the list behind its keyword says, and each name stands in the source at
its place. -/
theorem directive_names {source : String} {keep : Bool} {d : Document}
    (h : Document.parse source keep = .ok d) {directive : Directive}
    (hd : directive ∈ d.directives) :
    ∃ node content blanks list, d.get? directive.node = some node ∧
      node.content.commentText? = some content ∧
      content.chars = blanks ++ directiveKeyword.toList ++ list ∧ (∀ c ∈ blanks, isBlank c = true) ∧
      directive.Means list ∧
      ∀ e ∈ directive.entries,
        source.toByteArray.extract (byteOffset source e.location.start)
          (byteOffset source e.location.stop) =
          e.name.toByteArray := by
  obtain ⟨node, content, hget, hcontent, hof⟩ := Document.exists_commentText_of_mem_directives hd
  obtain ⟨blanks, list, hchars, hblanks, heq⟩ := Directive.exists_list_of_ofComment? hof
  refine ⟨node, content, blanks, list, hget, hcontent, hchars, hblanks, ?_,
    fun e => extract_entry h hd⟩
  rw [heq]
  exact Directive.means_ofList _ _ _ _ _

/-- Names between several kinds of blanks and on two lines, one of them twice, and an empty
place. -/
def spreadDirectives : String := "é<%#herb:disable\u3000é,\n é ,, b-c%><!--herb:disable:a-->"

theorem directive_names_spread : ∃ d a b, Document.parse spreadDirectives false = .ok d ∧
    d.directives = [a, b] ∧
    a.names = ["é", "é", "b-c"] ∧ a.hasBlankEntry = true ∧ b.matched = false ∧ b.names = [] ∧
    ∀ e ∈ a.entries,
      spreadDirectives.toByteArray.extract (byteOffset spreadDirectives e.location.start)
      (byteOffset spreadDirectives e.location.stop) = e.name.toByteArray := by
  have hok : (Document.parse spreadDirectives false).toOption.any (fun d =>
      decide (d.directives.length = 2 ∧ d.directives[0]?.map (fun a => (a.names, a.hasBlankEntry)) =
        some (["é", "é", "b-c"], true) ∧ d.directives[1]?.map (·.matched) = some false)) =
          true := by
    decide +kernel
  obtain ⟨d, hd, hfacts⟩ := exists_ok_of_any hok
  obtain ⟨hlength, hfirst, hsecond⟩ := of_decide_eq_true hfacts
  obtain ⟨a, b, hab⟩ := List.length_eq_two.mp hlength
  rw [hab] at hfirst hsecond
  obtain ⟨hnames, hempty⟩ := Prod.mk.inj (Option.some.inj hfirst)
  have hmatched := Option.some.inj hsecond
  obtain ⟨_, _, _, _, -, -, -, -, -, hplaces⟩ :=
    directive_names hd (hab ▸ List.mem_cons_self : a ∈ d.directives)
  obtain ⟨_, _, _, _, -, -, -, -, hmeans, -⟩ :=
    directive_names hd (hab ▸ List.mem_cons_of_mem _ List.mem_cons_self : b ∈ d.directives)
  exact ⟨d, a, b, hd, hab, hnames, hempty, hmatched, (hmeans.unmatched hmatched).1, hplaces⟩

end TemplateLint
