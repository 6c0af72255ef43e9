import TemplateLint.Proofs.DirectiveNames
import TemplateLint.Rules.Catalog

/-!
# What the rules on directives accept

Five rules look at directives, each at another part of them. Main statement: together they accept a
directive exactly if its keyword stands before a blank and a list that names every rule, or valid
rules only and none twice; no name is reported both for its form and as unknown, and the names
reported as repeated are those that stand further up in the list (`directiveRules_find`).
-/

namespace TemplateLint

open Text

/-! ## What a rule finds in one directive -/

/-- The rule finds these offenses in a directive, whatever its notes, which stay as they are. -/
def Rule.Finds (r : Rule) (d : Directive) (c : Context) (found : List Offense) : Prop :=
  match r with
  | .document _ => False
  | .directive rule => ∀ notes, rule.check d c notes = .ok (found, notes)

theorem Rule.finds_plain (descriptor : Descriptor)
    (check : Directive → Context → List Offense) (d : Directive) (c : Context)
    (found : List Offense) :
    Rule.Finds (.directive (.plain descriptor check)) d c found ↔ check d c = found := by
  simp [Finds, DirectiveRule.plain]

namespace Rules

variable {d : Directive} {c : Context}

theorem MalformedDirective.check_eq_nil_iff : check d = [] ↔
    d.matched = true ∧ d.hasBlankEntry = false ∧ ∀ name ∈ d.names, ∀ b ∈ name.toList,
      isBlank b = false := by
  cases hmatched : d.matched <;> cases hblank : d.hasBlankEntry <;>
    simp [check, Directive.names, hmatched, hblank]

theorem EmptyDirective.check_eq_nil_iff : check d = [] ↔ (d.matched = true → d.names ≠ []) := by
  simp [check, Directive.names]

theorem UnknownName.isUnknown_eq_false_iff (e : Entry) : isUnknown c e = false ↔
    e.name = everyRule ∨ (∃ b ∈ e.name.toList, isBlank b = true) ∨ e.name ∈ c.validNames := by
  simp [isUnknown, Context.isValid, imp_iff_not_or, or_assoc]

theorem UnknownName.check_eq_nil_iff : check d c = [] ↔
    ∀ name ∈ d.names, name = everyRule ∨ (∃ b ∈ name.toList, isBlank b = true) ∨
      name ∈ c.validNames := by
  simp only [check, List.map_eq_nil_iff, List.filter_eq_nil_iff, Bool.not_eq_true,
    isUnknown_eq_false_iff, Directive.names, List.forall_mem_map]

theorem RedundantName.check_eq_nil_iff : check d = [] ↔
    (everyRule ∈ d.names → ∀ name ∈ d.names, name = everyRule) := by
  rw [check, ite_eq_right_iff, Directive.disablesEvery, List.contains_iff_mem]
  simp [Directive.names]

/-! ## Repeated names -/

theorem RepeatedName.repeated_eq_filter {seen before : List String}
    (h : ∀ name, name ∈ seen ↔ name ∈ before) (entries : List Entry) :
    repeated seen entries = ((entries.zipIdx before.length).filter fun x =>
      decide (x.1.name ∈ (before ++ entries.map Entry.name).take x.2)).map Prod.fst := by
  -- `before` are the names before the entries.
  induction entries generalizing seen before with
  | nil => rfl
  | cons e rest ih =>
    have hsplit : before ++ (e :: rest).map Entry.name = (before ++ [e.name]) ++
        rest.map Entry.name := by simp
    have htake : (before ++ (e :: rest).map Entry.name).take before.length =
        before := List.take_left
    rw [repeated, List.zipIdx_cons, List.filter_cons, htake]
    split
    · rename_i hseen
      have hbefore : e.name ∈ before := (h _).mp (List.contains_iff_mem.mp hseen)
      have hsame (name : String) : name ∈ seen ↔ name ∈ before ++ [e.name] := by
        rw [h, List.mem_append, List.mem_singleton]
        exact ⟨Or.inl, fun hor => hor.elim id fun heq => heq ▸ hbefore⟩
      rw [if_pos (decide_eq_true hbefore), List.map_cons, ih hsame, hsplit, List.length_append]
      rfl
    · rename_i hseen
      have hbefore : e.name ∉ before := fun hm => hseen (List.contains_iff_mem.mpr ((h _).mpr hm))
      have hsame (name : String) : name ∈ e.name :: seen ↔ name ∈ before ++ [e.name] := by
        rw [List.mem_cons, List.mem_append, List.mem_singleton, h, or_comm]
      rw [if_neg (by simpa using hbefore), ih hsame, hsplit, List.length_append]
      rfl

theorem RepeatedName.repeated_eq_nil_iff (seen : List String) (entries : List Entry) :
    repeated seen entries = [] ↔ (entries.map Entry.name).Nodup ∧
      ∀ name ∈ entries.map Entry.name, name ∉ seen := by
  induction entries generalizing seen with
  | nil => simp [repeated]
  | cons e rest ih =>
    rw [repeated]
    split
    · rename_i hseen
      simp [List.contains_iff_mem.mp hseen]
    · rename_i hseen
      have hseen : e.name ∉ seen := fun hm => hseen (List.contains_iff_mem.mpr hm)
      rw [ih, List.map_cons, List.nodup_cons, List.forall_mem_cons]
      simp only [List.mem_cons, not_or]
      grind

theorem RepeatedName.check_eq_nil_iff : check d = [] ↔ d.names.Nodup := by
  rw [check, List.map_eq_nil_iff, repeated_eq_nil_iff, Directive.names]
  simp

end Rules

/-! ## Names that are reported once -/

namespace Directive

variable {id : NodeId} {location : Location} {content : Token} {d : Directive} {c : Context}

theorem ofList_with (id : NodeId) (location contentLocation : Location)
    (here : Position) (list : List Char) (other : Location) :
    ofList id other contentLocation here list =
      { ofList id location contentLocation here list with location := other } := by
  simp only [ofList]
  generalize (_ && _) = readable
  cases readable <;> rfl

theorem contentLocation_ofList (id : NodeId) (location contentLocation : Location) (here : Position)
    (list : List Char) :
    (ofList id location contentLocation here list).contentLocation = contentLocation := by
  simp only [ofList]
  generalize (_ && _) = readable
  cases readable <;> rfl

theorem ofComment?_eq_some {blanks list : List Char}
    (hchars : content.chars = blanks ++ directiveKeyword.toList ++ list)
    (hblanks : ∀ b ∈ blanks, isBlank b = true) (id : NodeId) (location : Location) :
    ofComment? id location content = some (ofList id location content.location
      (content.location.start.advance (blanks ++ directiveKeyword.toList)) list) := by
  have hstop : isBlank 'h' = false := by decide
  have hkeyword : directiveKeyword.toList ++ list = 'h' :: ("erb:disable".toList ++ list) := rfl
  have htake : content.chars.takeWhile isBlank = blanks := by
    rw [hchars, List.append_assoc, List.takeWhile_append_of_pos hblanks, hkeyword,
      List.takeWhile_cons_of_neg (by simp [hstop]), List.append_nil]
  have hdrop : trimStart content.chars = directiveKeyword.toList ++ list := by
    rw [trimStart, hchars, List.append_assoc, List.dropWhile_append_of_pos hblanks, hkeyword,
      List.dropWhile_cons_of_neg (by simp [hstop])]
  simp only [ofComment?, htake, hdrop, List.isPrefixOf_iff_prefix.mpr (List.prefix_append _ list),
    if_true, List.drop_left]

theorem places_of_ofComment? (h : ofComment? id location content = some d) :
    (∀ e ∈ d.entries, e.location ≠ d.contentLocation) ∧ (d.entries.map Entry.location).Nodup := by
  obtain ⟨blanks, list, hchars, hblanks, rfl⟩ := exists_list_of_ofComment? h
  -- Where a comment stands does not matter for its names, so it may stand around its text.
  have hplaced := placed_ofComment? (ofComment?_eq_some hchars hblanks id
    ⟨content.location.start, content.location.start.advance content.chars⟩)
      (Position.le_refl _) (Position.le_refl _)
  rw [ofList_with id location] at hplaced
  constructor
  · intro e he hloc
    have hbehind := (hplaced.inside e he).1
    rw [hloc, contentLocation_ofList] at hbehind
    exact Position.lt_irrefl _ hbehind
  · rw [List.Nodup, List.pairwise_map]
    refine hplaced.ordered.imp_of_mem fun {a b} ha _ hle hloc => ?_
    rw [← hloc] at hle
    exact Position.lt_irrefl _ (Position.lt_of_lt_of_le (hplaced.inside a ha).2.1 hle)

theorem countP_findings_le_one (h : ofComment? id location content = some d) {e : Entry}
    (he : e ∈ d.entries) :
    (Rules.MalformedDirective.check d ++ Rules.UnknownName.check d c).countP (fun o =>
      decide (o.location = e.location)) ≤ 1 := by
  -- A name with a blank in it is malformed, and is not looked up.
  obtain ⟨hcontent, hnodup⟩ := places_of_ofComment? h
  have hmatched : d.matched = true := by
    obtain ⟨blanks, list, -, -, rfl⟩ := exists_list_of_ofComment? h
    by_contra hun
    rw [((means_ofList ..).unmatched (Bool.eq_false_iff.mpr hun)).2] at he
    cases he
  have hblank : (if d.hasBlankEntry then
      [Rules.MalformedDirective.descriptor.offense
        Rules.MalformedDirective.blankEntryMessage d.contentLocation]
      else []).countP (fun o => decide (o.location = e.location)) = 0 := by
    split
    · simpa [Descriptor.offense] using Ne.symm (hcontent e he)
    · rfl
  have hunknown : (d.entries.filter (Rules.UnknownName.isUnknown c)).countP
      (fun x => decide (x.location = e.location)) ≤
      (d.entries.filter fun x => !x.name.toList.any isBlank).countP
        (fun x => decide (x.location = e.location)) := by
    apply List.Sublist.countP_le
    apply List.monotone_filter_right
    intro x hx
    simp only [Rules.UnknownName.isUnknown, Bool.and_eq_true] at hx
    exact hx.1.2
  calc
    _ = (d.entries.filter fun x => x.name.toList.any isBlank).countP
      (fun x => decide (x.location = e.location)) +
        (d.entries.filter (Rules.UnknownName.isUnknown c)).countP
          (fun x => decide (x.location = e.location)) := by
      simp only [Rules.MalformedDirective.check, Rules.UnknownName.check, hmatched,
        Bool.not_true, Bool.false_eq_true, if_false, List.countP_append, hblank,
        List.countP_map, Nat.zero_add]
      rfl
    _ ≤ d.entries.countP (fun x => decide (x.location = e.location)) := by
      rw [List.countP_eq_countP_filter_add d.entries _ fun x => x.name.toList.any isBlank]
      exact Nat.add_le_add_left hunknown _
    _ = (d.entries.map Entry.location).count e.location := by
      rw [List.count, List.countP_map]
      rfl
    _ ≤ 1 := List.nodup_iff_count_le_one.mp hnodup _

end Directive

/-! ## What is accepted -/

def namesBetweenCommas (list : List Char) : List (List Char) :=
  (list.splitOn ',').map fun piece => (piece.dropWhile isBlank).rdropWhile isBlank

/-- What may follow the keyword: a blank, and the name for every rule or names of rules, none
twice. -/
structure NamesRules (c : Context) (list : List Char) : Prop where
  apart : ∃ b ∈ list.head?, isBlank b = true
  names : namesBetweenCommas list = [everyRule.toList] ∨
    (namesBetweenCommas list).Nodup ∧ ∀ name ∈ namesBetweenCommas list, name ≠ [] ∧
      (∀ b ∈ name, isBlank b = false) ∧ name ≠ everyRule.toList ∧ String.ofList name ∈ c.validNames

theorem isBlank_of_mem_everyRule {b : Char} (h : b ∈ everyRule.toList) : isBlank b = false := by
  have hall : everyRule.toList.any isBlank = false := by decide
  exact Bool.eq_false_iff.mpr (List.any_eq_false.mp hall b h)

namespace Directive

variable {d : Directive} {c : Context} {list : List Char}

theorem accepted_iff : (∀ r ∈ Rules.directiveRules, r.Finds d c []) ↔
    (d.matched = true ∧ d.hasBlankEntry = false ∧ d.names ≠ []) ∧
      (∀ name ∈ d.names, ∀ b ∈ name.toList, isBlank b = false) ∧
      (d.names = [everyRule] ∨ d.names.Nodup ∧ everyRule ∉ d.names ∧ ∀ name ∈ d.names,
        name ∈ c.validNames) := by
  simp only [Rules.directiveRules, List.forall_mem_cons, Rules.malformedDirective,
    Rules.emptyDirective, Rules.unknownName, Rules.repeatedName, Rules.redundantName,
    Rule.finds_plain, Rules.MalformedDirective.check_eq_nil_iff,
    Rules.EmptyDirective.check_eq_nil_iff, Rules.UnknownName.check_eq_nil_iff,
    Rules.RepeatedName.check_eq_nil_iff, Rules.RedundantName.check_eq_nil_iff]
  constructor
  · rintro ⟨⟨hmatched, hblank, hjoined⟩, hempty, hunknown, hnodup, hredundant, -⟩
    refine ⟨⟨hmatched, hblank, hempty hmatched⟩, hjoined, ?_⟩
    by_cases hevery : everyRule ∈ d.names
    · left
      have hreplicate := List.eq_replicate_of_mem (hredundant hevery)
      have hone : d.names.length = 1 :=
        Nat.le_antisymm (List.nodup_replicate.mp (hreplicate ▸ hnodup))
          (List.length_pos_of_mem hevery)
      rw [hreplicate, hone]
      rfl
    · right
      refine ⟨hnodup, hevery, fun name hm => ?_⟩
      rcases hunknown name hm with rfl | ⟨b, hb, hblank⟩ | hvalid
      · exact absurd hm hevery
      · simp [hjoined name hm b hb] at hblank
      · exact hvalid
  · rintro ⟨⟨hmatched, hblank, hempty⟩, hjoined, hevery | ⟨hnodup, hevery, hvalid⟩⟩
    · simp_all
    · exact ⟨⟨hmatched, hblank, hjoined⟩, fun _ => hempty,
        fun name hm => .inr (.inr (hvalid name hm)), hnodup,
        fun hm => absurd hm hevery, by simp⟩

theorem Means.names_of_no_blank (h : d.Means list) (hmatched : d.matched = true)
    (hblank : [] ∉ namesBetweenCommas list) :
    d.names = (namesBetweenCommas list).map String.ofList ∧ d.hasBlankEntry = false := by
  constructor
  · rw [h.names_eq hmatched, ← namesBetweenCommas, List.filter_eq_self.mpr]
    intro name hm
    simpa using ne_of_mem_of_not_mem hm hblank
  · rw [Bool.eq_false_iff]
    intro hentry
    obtain ⟨-, piece, hpiece, hall⟩ := (h.hasBlankEntry_iff hmatched).mp hentry
    exact hblank (List.mem_map.mpr ⟨piece, hpiece, trim_eq_nil_iff.mpr hall⟩)

theorem Means.no_blank_of_names (h : d.Means list) (hmatched : d.matched = true)
    (hentry : d.hasBlankEntry = false) (hnames : d.names ≠ []) :
    list ≠ [] ∧ [] ∉ namesBetweenCommas list := by
  have hinked : ∃ b ∈ list, isBlank b = false := by
    by_contra hall
    have hall : ∀ b ∈ list, isBlank b = true := by simpa using hall
    refine hnames ?_
    rw [h.names_eq hmatched, ← splitAt_eq_splitOn, splitAt_of_blank hall,
      List.map_singleton, ← trim_eq_rdropWhile, trim_eq_nil_iff.mpr hall]
    rfl
  constructor
  · rintro rfl
    simp at hinked
  · intro hm
    obtain ⟨piece, hpiece, htrim⟩ := List.mem_map.mp hm
    have := (h.hasBlankEntry_iff hmatched).mpr ⟨hinked, piece, hpiece, trim_eq_nil_iff.mp htrim⟩
    simp [hentry] at this

theorem accepted_iff_namesRules (h : d.Means list) :
    (∀ r ∈ Rules.directiveRules, r.Finds d c []) ↔ NamesRules c list := by
  rw [accepted_iff]
  constructor
  · rintro ⟨⟨hmatched, hentry, hne⟩, hjoined, hnames⟩
    obtain ⟨hlist, hblank⟩ := h.no_blank_of_names hmatched hentry hne
    obtain ⟨b, rest, rfl⟩ := List.exists_cons_of_ne_nil hlist
    rw [(h.names_of_no_blank hmatched hblank).1] at hjoined hnames
    refine ⟨⟨b, rfl, h.matched_iff.mp hmatched b rfl⟩, hnames.imp ?_ ?_⟩
    · intro hall
      simpa [Function.comp_def] using congrArg (List.map String.toList) hall
    · rintro ⟨hnodup, hevery, hvalid⟩
      refine ⟨hnodup.of_map,
        fun name hm => ⟨ne_of_mem_of_not_mem hm hblank, ?_, ?_, hvalid _ (List.mem_map_of_mem hm)⟩⟩
      · simpa using hjoined _ (List.mem_map_of_mem hm)
      · rintro rfl
        exact hevery (List.mem_map.mpr ⟨_, hm, String.ofList_toList⟩)
  · rintro ⟨⟨b, hb, hhead⟩, hnames⟩
    have hmatched : d.matched = true := h.matched_iff.mpr fun b' hb' =>
      Option.mem_unique hb' hb ▸ hhead
    have hblank : [] ∉ namesBetweenCommas list := by
      rcases hnames with hall | ⟨-, hnames⟩
      · rw [hall, List.mem_singleton]
        decide
      · exact fun hm => (hnames [] hm).1 rfl
    have hne : namesBetweenCommas list ≠ [] := by simp [namesBetweenCommas]
    obtain ⟨hmap, hentry⟩ := h.names_of_no_blank hmatched hblank
    refine ⟨⟨hmatched, hentry, by simpa [hmap] using hne⟩, ?_, ?_⟩
    · rw [hmap, List.forall_mem_map]
      intro name hm
      rw [String.toList_ofList]
      rcases hnames with hall | ⟨-, hnames⟩
      · rw [hall, List.mem_singleton] at hm
        rw [hm]
        exact fun b => isBlank_of_mem_everyRule
      · exact (hnames name hm).2.1
    · rw [hmap]
      refine hnames.imp (fun hall => by rw [hall, List.map_singleton, String.ofList_toList]) ?_
      rintro ⟨hnodup, hnames⟩
      refine ⟨hnodup.map fun _ _ => String.ofList_injective, ?_,
        List.forall_mem_map.mpr fun name hm => (hnames name hm).2.2.2⟩
      rw [List.mem_map]
      rintro ⟨name, hm, hname⟩
      exact (hnames name hm).2.2.1 (by rw [← hname, String.toList_ofList])

end Directive

/-- The rules on directives find nothing in a directive exactly if its list names rules, none of
them twice. -/
theorem directiveRules_find {content : Token} {blanks list : List Char}
    (hcontent : content.chars = blanks ++ directiveKeyword.toList ++ list)
    (hblanks : ∀ b ∈ blanks, isBlank b = true) (id : NodeId) (location : Location) (c : Context) :
    ∃ d, Directive.ofComment? id location content = some d ∧
      ((∀ r ∈ Rules.directiveRules, r.Finds d c []) ↔ NamesRules c list) ∧
      (∃ malformed unknown, Rules.malformedDirective.Finds d c malformed ∧
        Rules.unknownName.Finds d c unknown ∧
        ∀ e ∈ d.entries,
          (malformed ++ unknown).countP (fun o => decide (o.location = e.location)) ≤ 1) ∧
      Rules.repeatedName.Finds d c
        ((d.entries.zipIdx.filter fun x => decide (x.1.name ∈ d.names.take x.2)).map
        fun x => Rules.RepeatedName.descriptor.offense
          (Rules.RepeatedName.message x.1.name) x.1.location) := by
  have hof := Directive.ofComment?_eq_some hcontent hblanks id location
  refine ⟨_, hof, Directive.accepted_iff_namesRules (Directive.means_ofList ..), ?_, ?_⟩
  · exact ⟨_, _, (Rule.finds_plain ..).mpr rfl, (Rule.finds_plain ..).mpr rfl,
      fun e he => Directive.countP_findings_le_one hof he⟩
  · rw [Rules.repeatedName, Rule.finds_plain, Rules.RepeatedName.check,
      Rules.RepeatedName.repeated_eq_filter (fun name => Iff.refl (name ∈ [])), List.map_map]
    rfl

def repeatedList : Token :=
  ⟨"\therb:disable a, b-c ,a", .spanning ⟨2, 5⟩ "\therb:disable a, b-c ,a".toList⟩

def knownList : Token :=
  ⟨"herb:disable\u3000b-c,a", .spanning ⟨2, 5⟩ "herb:disable\u3000b-c,a".toList⟩

theorem directiveRules_find_repeated :
    (∃ d, Directive.ofComment? 0 repeatedList.location repeatedList = some d ∧
      (¬ ∀ r ∈ Rules.directiveRules, r.Finds d { validNames := ["a", "b-c"] } []) ∧
      Rules.repeatedName.Finds d { validNames := ["a", "b-c"] }
        [Rules.RepeatedName.descriptor.offense (Rules.RepeatedName.message "a")
          ⟨⟨2, 27⟩, ⟨2, 28⟩⟩]) ∧
    ∃ d, Directive.ofComment? 0 knownList.location knownList = some d ∧
      ∀ r ∈ Rules.directiveRules, r.Finds d { validNames := ["a", "b-c"] } [] := by
  constructor
  · have hchars : repeatedList.chars = ['\t'] ++ directiveKeyword.toList ++
        " a, b-c ,a".toList := by decide
    have hblanks : ∀ b ∈ ['\t'], isBlank b = true := List.all_eq_true.mp (by decide)
    obtain ⟨d, hof, haccept, -, hrepeated⟩ :=
      directiveRules_find hchars hblanks 0 repeatedList.location { validNames := ["a", "b-c"] }
    refine ⟨d, hof, fun hall => ?_, ?_⟩
    · obtain ⟨-, hnames | ⟨hnodup, -⟩⟩ := haccept.mp hall
      · exact absurd hnames (by decide)
      · exact absurd hnodup (by decide)
    · obtain rfl :=
        Option.some.inj ((Directive.ofComment?_eq_some hchars hblanks _ _).symm.trans hof)
      convert hrepeated using 1
      decide +kernel
  · have hchars : knownList.chars = [] ++ directiveKeyword.toList ++
        "\u3000b-c,a".toList := by decide
    obtain ⟨d, hof, haccept, -⟩ :=
      directiveRules_find hchars (by simp) 0 knownList.location { validNames := ["a", "b-c"] }
    have hnames : namesBetweenCommas "\u3000b-c,a".toList = ["b-c".toList, "a".toList] := by decide
    refine ⟨d, hof, haccept.mpr ⟨⟨'\u3000', rfl, by decide⟩, Or.inr ?_⟩⟩
    rw [hnames]
    refine ⟨by decide, List.forall_mem_cons.mpr ⟨?_, List.forall_mem_singleton.mpr ?_⟩⟩
    all_goals exact ⟨by decide,
      fun b hb => Bool.eq_false_iff.mpr (List.any_eq_false.mp (by decide) b hb), by decide,
      by decide⟩

end TemplateLint
