import TemplateLint.Proofs.BlankIndependence
import TemplateLint.Proofs.Locations

/-!
# Places of directives

The names of a directive stand inside its comment, one behind the other, and comments do not
overlap. So in a parsed document a place belongs to one directive or to one name only
(`apart_of_parse`).
-/

namespace TemplateLint

open Text Stretch

/-! ## Order of places -/

theorem rel_or_rel_of_pairwise {α : Type} {R : α → α → Prop} {xs : List α} (h : xs.Pairwise R)
    {a b : α} (ha : a ∈ xs) (hb : b ∈ xs) (hne : a ≠ b) : R a b ∨ R b a := by
  have hsymm : Std.Symm fun a b => R a b ∨ R b a := ⟨fun _ _ => Or.symm⟩
  exact (h.imp (S := fun a b => R a b ∨ R b a) Or.inl).forall ha hb hne

namespace Position

theorem lt_iff (p q : Position) :
    p.lt q = true ↔ p.line < q.line ∨ p.line = q.line ∧ p.column < q.column := by
  simp only [lt, Bool.not_eq_true', ← Bool.not_eq_true, le_iff]
  omega

theorem lt_of_lt_of_le {p q r : Position} (h : p.lt q = true) (h' : q.le r = true) :
    p.lt r = true := by
  rw [lt_iff] at *
  rw [le_iff] at h'
  omega

theorem lt_of_le_of_lt {p q r : Position} (h : p.le q = true) (h' : q.lt r = true) :
    p.lt r = true := by
  rw [lt_iff] at *
  rw [le_iff] at h
  omega

theorem le_of_lt {p q : Position} (h : p.lt q = true) : p.le q = true := by
  rw [lt_iff] at h
  rw [le_iff]
  omega

theorem lt_irrefl (p : Position) : ¬ p.lt p = true := by
  rw [lt_iff]
  omega

theorem lt_advance (p : Position) {text : List Char} (h : text ≠ []) :
    p.lt (p.advance text) = true := by
  cases text with
  | nil => exact absurd rfl h
  | cons c rest =>
    have hle := (next_le_iff p _ c).mp (le_advance (p.next c) rest)
    rw [lt_iff, advance_cons]
    omega

end Position

theorem Location.spanning_eq (p : Position) (text : List Char) :
    spanning p text = ⟨p, p.advance text⟩ := by
  have hle : (p.advance text).lt p = false := by
    rw [Position.lt, Position.le_advance]
    rfl
  rw [spanning, between, hle]
  rfl

/-! ## Names in a list -/

theorem Text.trim_append (s : List Char) : ∃ rest, s = s.takeWhile isBlank ++ trim s ++ rest := by
  refine ⟨((s.dropWhile isBlank).reverse.takeWhile isBlank).reverse, ?_⟩
  rw [trim, trimEnd, trimStart, List.append_assoc, ← List.reverse_append,
    List.takeWhile_append_dropWhile, List.reverse_reverse, List.takeWhile_append_dropWhile]

theorem Text.flatMap_splitAt (separator : Char) (s : List Char) :
    (splitAt separator s).flatMap (· ++ [separator]) = s ++ [separator] := by
  induction s with
  | nil => rfl
  | cons c rest ih =>
    rw [splitAt]
    split
    · rename_i hc
      rw [List.flatMap_cons, ih, hc]
      rfl
    · cases hpieces : splitAt separator rest with
      | nil => simp [hpieces] at ih
      | cons piece pieces =>
        rw [hpieces, List.flatMap_cons] at ih
        rw [List.flatMap_cons, List.cons_append, List.cons_append, ih]
        rfl

namespace Entry

variable {here : Position} {pieces : List (List Char)} {e : Entry}

theorem inside_of_mem_ofPieces (h : e ∈ ofPieces here pieces) :
    e.name.toList ≠ [] ∧ ∃ before after,
      pieces.flatMap (· ++ [',']) = before ++ e.name.toList ++ after ∧ after ≠ [] ∧
      e.location = ⟨here.advance before, here.advance (before ++ e.name.toList)⟩ := by
  induction pieces generalizing here with
  | nil => simp [ofPieces] at h
  | cons piece rest ih =>
    have hlater (hmem : e ∈ ofPieces (here.advance (piece ++ [','])) rest) :
        e.name.toList ≠ [] ∧ ∃ before after,
          (piece :: rest).flatMap (· ++ [',']) = before ++ e.name.toList ++ after ∧
          after ≠ [] ∧
          e.location = ⟨here.advance before, here.advance (before ++ e.name.toList)⟩ := by
      obtain ⟨hne, before, after, htext, hafter, hloc⟩ := ih hmem
      refine ⟨hne, piece ++ [','] ++ before, after, ?_, hafter, ?_⟩
      · rw [List.flatMap_cons, htext]
        simp
      · rw [hloc, List.append_assoc (piece ++ [',']),
          Position.advance_append here (piece ++ [',']) before,
          Position.advance_append here (piece ++ [',']) (before ++ _)]
    rw [ofPieces] at h
    split at h
    · exact hlater h
    · rename_i hne
      rcases List.mem_cons.mp h with rfl | h
      · obtain ⟨trailing, htrim⟩ := trim_append piece
        simp only [String.toList_ofList, Location.spanning_eq]
        refine ⟨by simpa using hne, piece.takeWhile isBlank,
          trailing ++ [','] ++ rest.flatMap (· ++ [',']), ?_, by simp, ?_⟩
        · rw [List.flatMap_cons]
          conv_lhs => rw [htrim]
          simp
        · rw [Position.advance_append]
      · exact hlater h

theorem inside_of_mem_splitAt {list : List Char} (h : e ∈ ofPieces here (splitAt ',' list)) :
    e.name.toList ≠ [] ∧ ∃ before after, list = before ++ e.name.toList ++ after ∧
      e.location = ⟨here.advance before, here.advance (before ++ e.name.toList)⟩ := by
  obtain ⟨hne, before, after, htext, hafter, hplace⟩ := inside_of_mem_ofPieces h
  obtain ⟨after, comma, rfl⟩ := (List.eq_nil_or_concat after).resolve_left hafter
  rw [Text.flatMap_splitAt, List.concat_eq_append, ← List.append_assoc] at htext
  exact ⟨hne, before, after, (List.append_inj' htext rfl).1, hplace⟩

theorem ordered_ofPieces (here : Position) (pieces : List (List Char)) :
    (ofPieces here pieces).Pairwise fun a b => a.location.stop.le b.location.start = true := by
  induction pieces generalizing here with
  | nil => exact List.Pairwise.nil
  | cons piece rest ih =>
    rw [ofPieces]
    split
    · exact ih _
    · rw [List.pairwise_cons]
      refine ⟨?_, ih _⟩
      intro b hb
      obtain ⟨-, before, -, -, -, hloc⟩ := inside_of_mem_ofPieces hb
      obtain ⟨trailing, htrim⟩ := trim_append piece
      -- The first name ends in its piece, the others start behind it.
      have hpiece : here.advance (piece ++ [',']) =
          ((here.advance (piece.takeWhile isBlank)).advance (trim piece)).advance
            (trailing ++ [',']) := by
        conv_lhs => rw [htrim]
        simp only [Position.advance_append]
      rw [hloc, Location.spanning_eq, hpiece]
      exact Position.le_trans (Position.le_advance _ _) (Position.le_advance _ _)

end Entry

/-! ## Names in a comment -/

namespace Directive

/-- The names stand behind the start of the directive, one behind the other. -/
structure Placed (d : Directive) : Prop where
  nonempty : d.location.start.lt d.location.stop = true
  inside : ∀ e ∈ d.entries, d.location.start.lt e.location.start = true ∧
    e.location.start.lt e.location.stop = true ∧ e.location.stop.le d.location.stop = true
  ordered : d.entries.Pairwise fun a b => a.location.stop.le b.location.start = true

variable {id : NodeId} {location contentLocation : Location} {here : Position}
  {list : List Char} {content : Token} {d : Directive}

theorem ofList_spec (id : NodeId) (location contentLocation : Location)
    (here : Position) (list : List Char) :
    let d := ofList id location contentLocation here list
    d.node = id ∧ d.location = location ∧
    (d.entries = [] ∨ d.entries = Entry.ofPieces here (splitAt ',' list)) := by
  simp only [ofList]
  generalize (_ && _) = readable
  cases readable
  · exact ⟨rfl, rfl, Or.inl rfl⟩
  · exact ⟨rfl, rfl, Or.inr rfl⟩

theorem exists_list_of_ofComment? (h : ofComment? id location content = some d) :
    ∃ blanks list, content.chars = blanks ++ directiveKeyword.toList ++ list ∧
      (∀ c ∈ blanks, isBlank c = true) ∧
      d = ofList id location content.location
        (content.location.start.advance (blanks ++ directiveKeyword.toList)) list := by
  unfold ofComment? at h
  simp only at h
  split at h
  · rename_i hkeyword
    obtain ⟨list, hlist⟩ := List.isPrefixOf_iff_prefix.mp hkeyword
    rw [← hlist, List.drop_left] at h
    refine ⟨content.chars.takeWhile isBlank, list, ?_, fun c => List.mem_takeWhile_imp,
      (Option.some.inj h).symm⟩
    rw [List.append_assoc, hlist, trimStart, List.takeWhile_append_dropWhile]
  · cases h

theorem ofComment?_spec (h : ofComment? id location content = some d) :
    d.node = id ∧ d.location = location ∧ ∃ blanks list,
      content.chars = blanks ++ directiveKeyword.toList ++ list ∧
      (d.entries = [] ∨ d.entries =
        Entry.ofPieces (content.location.start.advance (blanks ++ directiveKeyword.toList))
          (splitAt ',' list)) := by
  obtain ⟨blanks, list, hchars, -, rfl⟩ := exists_list_of_ofComment? h
  obtain ⟨hnode, hloc, hentries⟩ := ofList_spec id location content.location
    (content.location.start.advance (blanks ++ directiveKeyword.toList)) list
  exact ⟨hnode, hloc, blanks, list, hchars, hentries⟩

theorem placed_ofComment? (h : ofComment? id location content = some d)
    (hstart : location.start.le content.location.start = true)
    (hstop : (content.location.start.advance content.chars).le location.stop = true) :
    d.Placed := by
  obtain ⟨-, hloc, blanks, list, hchars, hentries⟩ := ofComment?_spec h
  have hkeyword : blanks ++ directiveKeyword.toList ≠ [] := by simp [directiveKeyword]
  rw [hchars, Position.advance_append] at hstop
  generalize hhere : content.location.start.advance (blanks ++ directiveKeyword.toList) = here at *
  have hbehind : location.start.lt here = true := by
    rw [← hhere]
    exact Position.lt_of_le_of_lt hstart (Position.lt_advance _ hkeyword)
  refine ⟨?_, ?_, ?_⟩
  · rw [hloc]
    exact Position.lt_of_lt_of_le hbehind (Position.le_trans (Position.le_advance here list) hstop)
  · intro e he
    rcases hentries with hnil | hentries
    · simp [hnil] at he
    rw [hentries] at he
    obtain ⟨hne, before, after, hlist, hplace⟩ := Entry.inside_of_mem_splitAt he
    rw [hlist, Position.advance_append] at hstop
    rw [hloc, hplace]
    refine ⟨?_, ?_, ?_⟩
    · exact Position.lt_of_lt_of_le hbehind (Position.le_advance _ _)
    · rw [Position.advance_append]
      exact Position.lt_advance _ hne
    · exact Position.le_trans (Position.le_advance _ after) hstop
  · rcases hentries with hnil | hentries
    · rw [hnil]
      exact List.Pairwise.nil
    · rw [hentries]
      exact Entry.ordered_ofPieces _ _

end Directive

/-! ## Comments in a document -/

namespace Document

variable {d : Document} {a id x y : NodeId} {node : Node} {p : Position}
  {run : List Stretch} {t : Token}

theorem Runs.token_inside (h : d.Runs p run) (ht : .token t ∈ run.map item) :
    p.le t.location.start = true ∧
    (t.location.start.advance t.chars).le (p.advance (spelled run)) = true := by
  obtain ⟨before, after, htext, hplace⟩ := h.item_inside ht
  have htext : spelled run = before ++ t.chars ++ after := htext
  have hstart : t.location.start = p.advance before :=
    congrArg Location.start (Option.some.inj hplace)
  rw [hstart, htext, Position.advance_append, Position.advance_append]
  exact ⟨Position.le_advance _ _, Position.le_advance _ _⟩

theorem Exact.placed (he : d.Exact) (hget : d.get? id = some node) {directive : Directive}
    (h : Directive.ofNode? id node = some directive) :
    directive.Placed ∧ directive.node = id ∧ directive.location = node.location ∧
    node.children = [] := by
  obtain ⟨run, hitems, hruns, hstop⟩ := he id node hget
  have hcomment {content : Token}
      (hof : Directive.ofComment? id node.location content = some directive)
      (hmem : .token content ∈ node.content.items) (hleaf : node.children = []) :
      directive.Placed ∧ directive.node = id ∧ directive.location = node.location ∧
      node.children = [] := by
    obtain ⟨hnode, hloc, -⟩ := Directive.ofComment?_spec hof
    rw [← hitems] at hmem
    obtain ⟨hfirst, hlast⟩ := hruns.token_inside hmem
    rw [← hstop] at hlast
    exact ⟨Directive.placed_ofComment? hof hfirst hlast, hnode, hloc, hleaf⟩
  unfold Directive.ofNode? at h
  split at h
  · rename_i opening content closing hcontent
    split at h
    · exact hcomment h (by simp [hcontent, Content.items])
        (by simp [Node.children, hcontent, Content.children])
    · cases h
  · rename_i opening content closing hcontent
    exact hcomment h (by simp [hcontent, Content.items])
      (by simp [Node.children, hcontent, Content.children])
  · cases h

theorem Exact.covers_below (he : d.Exact) (hg : d.Grounded) (hb : d.Below a x) {la lx : Location}
    (ha : d.location? a = some la) (hx : d.location? x = some lx) :
    la.start.le lx.start = true ∧ lx.stop.le la.stop = true := by
  induction hb generalizing lx with
  | refl =>
    obtain rfl := Option.some.inj (ha.symm.trans hx)
    exact ⟨Position.le_refl _, Position.le_refl _⟩
  | @tail b c _ hc ih =>
    obtain ⟨node, hget⟩ := isLive_iff.mp (isLive_of_mem_children hc)
    rw [children_of_get? hget] at hc
    have hnode : d.location? b = some node.location := by rw [location?, hget]; rfl
    obtain ⟨hstart, hstop⟩ := ih hnode
    obtain ⟨lc, hlc, hcovers⟩ := he.covers_child hg hget hc
    obtain rfl := Option.some.inj (hlc.symm.trans hx)
    obtain ⟨hstart', hstop'⟩ := Bool.and_eq_true_iff.mp hcovers
    exact ⟨Position.le_trans hstart hstart', Position.le_trans hstop' hstop⟩

theorem Exact.apart (he : d.Exact) (hg : d.Grounded) (hx : d.Below a x)
    (hy : d.Below a y) (hxy : ¬ d.Below x y) (hyx : ¬ d.Below y x) {lx ly : Location}
    (hlx : d.location? x = some lx) (hly : d.location? y = some ly) :
    lx.stop.le ly.start = true ∨ ly.stop.le lx.start = true := by
  -- Down from a common ancestor to the node where the ways part.
  induction a using hg.induct with
  | h a ih =>
    rcases hx.cases_head with rfl | ⟨b, hb, hbx⟩
    · exact absurd hy hxy
    rcases hy.cases_head with rfl | ⟨c, hc, hcy⟩
    · exact absurd hx hyx
    by_cases hbc : b = c
    · subst hbc
      exact ih b hb hbx hcy
    obtain ⟨node, hget⟩ := isLive_iff.mp (isLive_of_mem_children hb)
    rw [children_of_get? hget] at hb hc
    rcases rel_or_rel_of_pairwise (he.children_ordered hget) hb hc hbc
      with ⟨lb, lc, hlb, hlc, hle⟩ | ⟨lc, lb, hlc, hlb, hle⟩
    · exact Or.inl (Position.le_trans (he.covers_below hg hbx hlb hlx).2
        (Position.le_trans hle (he.covers_below hg hcy hlc hly).1))
    · exact Or.inr (Position.le_trans (he.covers_below hg hcy hlc hly).2
        (Position.le_trans hle (he.covers_below hg hbx hlb hlx).1))

end Document

/-! ## All directives of a document -/

namespace Directive

/-- Each directive has its names in place, and no two directives overlap. -/
structure Apart (directives : List Directive) : Prop where
  placed : ∀ d ∈ directives, d.Placed
  disjoint : ∀ a ∈ directives, ∀ b ∈ directives, a ≠ b →
    a.location.stop.le b.location.start = true ∨ b.location.stop.le a.location.start = true

theorem Apart.renumber {directives : List Directive} (h : Apart directives)
    (new : NodeId → NodeId) :
    Apart (directives.map (Directive.renumber new)) := by
  refine ⟨?_, ?_⟩
  · intro d' hd'
    obtain ⟨d, hd, rfl⟩ := List.mem_map.mp hd'
    obtain ⟨hnonempty, hinside, hordered⟩ := h.placed d hd
    exact ⟨hnonempty, hinside, hordered⟩
  · intro a' ha' b' hb' hne
    obtain ⟨a, ha, rfl⟩ := List.mem_map.mp ha'
    obtain ⟨b, hb, rfl⟩ := List.mem_map.mp hb'
    exact h.disjoint a ha b hb fun hab => hne (by rw [hab])

variable {directives : List Directive} {a b : Directive} {e f : Entry}

theorem Apart.not_both_inside (h : Apart directives) (ha : a ∈ directives)
    (hb : b ∈ directives) (hne : a ≠ b) {l : Location} (hl : l.start.lt l.stop = true)
    (hal : a.location.start.le l.start = true) (hla : l.stop.le a.location.stop = true)
    (hbl : b.location.start.le l.start = true)
    (hlb : l.stop.le b.location.stop = true) : False := by
  apply Position.lt_irrefl l.start
  rcases h.disjoint a ha b hb hne with hab | hba
  · exact Position.lt_of_lt_of_le hl (Position.le_trans hla (Position.le_trans hab hbl))
  · exact Position.lt_of_lt_of_le hl (Position.le_trans hlb (Position.le_trans hba hal))

theorem Apart.eq_of_location (h : Apart directives) (ha : a ∈ directives) (hb : b ∈ directives)
    (hl : a.location = b.location) : a = b := by
  by_contra hne
  refine h.not_both_inside ha hb hne (h.placed a ha).nonempty (Position.le_refl _)
    (Position.le_refl _) ?_ ?_
  · rw [hl]; exact Position.le_refl _
  · rw [hl]; exact Position.le_refl _

theorem Apart.location_ne (h : Apart directives) (ha : a ∈ directives) (hb : b ∈ directives)
    (he : e ∈ b.entries) :
    a.location ≠ e.location := by
  intro hl
  obtain ⟨hstart, hne, hstop⟩ := (h.placed b hb).inside e he
  by_cases hab : a = b
  · subst hab
    rw [hl] at hstart
    exact Position.lt_irrefl _ hstart
  · refine h.not_both_inside ha hb hab hne ?_ ?_ (Position.le_of_lt hstart) hstop
    · rw [hl]; exact Position.le_refl _
    · rw [hl]; exact Position.le_refl _

theorem Apart.eq_of_entry_location (h : Apart directives)
    (ha : a ∈ directives) (hb : b ∈ directives) (he : e ∈ a.entries) (hf : f ∈ b.entries)
    (hl : e.location = f.location) : a = b ∧ e = f := by
  obtain ⟨hastart, hne, hastop⟩ := (h.placed a ha).inside e he
  obtain ⟨hbstart, -, hbstop⟩ := (h.placed b hb).inside f hf
  have hab : a = b := by
    by_contra hab
    rw [← hl] at hbstart hbstop
    exact h.not_both_inside ha hb hab hne (Position.le_of_lt hastart) hastop
      (Position.le_of_lt hbstart) hbstop
  subst hab
  refine ⟨rfl, ?_⟩
  by_contra hef
  apply Position.lt_irrefl e.location.start
  rcases rel_or_rel_of_pairwise (h.placed a ha).ordered he hf hef with hle | hle
  · rw [← hl] at hle
    exact Position.lt_of_lt_of_le hne hle
  · rw [← hl] at hle
    exact Position.lt_of_lt_of_le hne hle

end Directive

theorem Document.Exact.apart_directives {d : Document} (he : d.Exact) (hf : d.Forest [d.root]) :
    Directive.Apart d.directives := by
  have hnode {directive : Directive} (h : directive ∈ d.directives) :
      ∃ node, d.get? directive.node = some node ∧
        Directive.ofNode? directive.node node = some directive := by
    obtain ⟨v, hv, hof⟩ := List.mem_filterMap.mp h
    have hget := get?_of_mem_visits hv
    obtain ⟨-, hid, -⟩ := he.placed hget hof
    rw [hid]
    exact ⟨v.node, hget, hof⟩
  refine ⟨?_, ?_⟩
  · intro directive hd
    obtain ⟨node, hget, hof⟩ := hnode hd
    exact (he.placed hget hof).1
  · intro a ha b hb hne
    obtain ⟨m, hm, hma⟩ := hnode ha
    obtain ⟨n, hn, hnb⟩ := hnode hb
    obtain ⟨-, -, hla, hmleaf⟩ := he.placed hm hma
    obtain ⟨-, -, hlb, hnleaf⟩ := he.placed hn hnb
    have hids : a.node ≠ b.node := by
      intro hid
      rw [hid, hn] at hm
      obtain rfl := Option.some.inj hm
      rw [hid] at hma
      exact hne (Option.some.inj (hma.symm.trans hnb))
    have hapart {x y : NodeId} {k : Node} (hk : d.get? x = some k)
        (hleaf : k.content.children = []) (hxy : x ≠ y) :
        ¬ d.Below x y := by
      intro hbelow
      rcases hbelow.cases_head with h | ⟨c, hc, -⟩
      · exact hxy h
      · rw [children_of_get? hk, hleaf] at hc
        cases hc
    rw [hla, hlb]
    exact he.apart hf.grounded (hf.below_of_top_eq (isLive_of_get? hm))
      (hf.below_of_top_eq (isLive_of_get? hn))
      (hapart hm hmleaf hids) (hapart hn hnleaf hids.symm) (by rw [location?, hm]; rfl)
        (by rw [location?, hn]; rfl)

/-- The directives of a parsed document do not overlap, whether blanks are kept as nodes or not. -/
theorem apart_of_parse {source : String} {keep : Bool} {d : Document}
    (h : Document.parse source keep = .ok d) :
    Directive.Apart d.directives := by
  obtain ⟨ps, hps, rfl⟩ := exists_readPieces_of_parse h
  have hkept := Document.parse_of_readPieces hps true
  have hapart := (exact_of_parse hkept).1.apart_directives (forest_of_parse hkept)
  cases keep with
  | true => exact hapart
  | false =>
    rw [Document.ofPieces_false, (Document.tidy_ofPieces ps).directives_shifted]
    exact hapart.renumber _

end TemplateLint
