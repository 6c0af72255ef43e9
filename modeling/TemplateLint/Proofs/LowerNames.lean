import TemplateLint.Proofs.FullPass
import TemplateLint.Proofs.HeldPieces
import TemplateLint.Proofs.PrunedLayout
import TemplateLint.Proofs.Reread

/-!
# Tag names in lowercase

Readers pair tags by the letters of ASCII in their names, while the fix of tag names lowercases all
letters. Where the two agree on a template, a pass over the names leaves the tree as it is but for
these names (`parse_lowerNames`).
-/

namespace TemplateLint

open Markup Text

namespace Document

variable {d d' : Document} {ts : List NodeId} {x y : NodeId}

/-! ## Other names -/

/-- The document with the names of some of its tags in lowercase. -/
def lowerNames (d : Document) (ts : List NodeId) : Document :=
  { d with slots := d.slots.mapIdx fun x slot =>
      { slot with
        node := { slot.node with
          content := slot.node.content.mapName (if x ∈ ts then lowercase else id) } } }

theorem content?_lowerNames (d : Document) (ts : List NodeId) (x : NodeId) :
    (d.lowerNames ts).content? x =
      (d.content? x).map (Content.mapName (if x ∈ ts then lowercase else id)) :=
  d.content?_retouch (fun x => Content.mapName (if x ∈ ts then lowercase else id)) x

/-- The name of a tag, and whether it is a close tag. -/
def tagAt? (d : Document) (x : NodeId) : Option (Bool × List Char) :=
  match d.content? x with
  | some (.openTag _ name _ _) => some (false, name.chars)
  | some (.closeTag _ name _ _) => some (true, name.chars)
  | _ => none

theorem tagAt?_lowerNames (d : Document) (ts : List NodeId) (x : NodeId) :
    (d.lowerNames ts).tagAt? x =
      (d.tagAt? x).map (Prod.map id (if x ∈ ts then lowercase else id)) := by
  rw [tagAt?, tagAt?, content?_lowerNames]
  cases d.content? x with
  | none => rfl
  | some c => cases c <;> simp [Content.mapName, Token.mapChars, Token.chars]

theorem exists_of_tagAt? {tag : Bool × List Char} (h : d.tagAt? x = some tag) :
    ∃ c name, d.content? x = some c ∧ c.nameToken? = some name ∧ name.chars = tag.2 := by
  unfold tagAt? at h
  split at h
  · rename_i hc
    cases h
    exact ⟨_, _, hc, rfl, rfl⟩
  · rename_i hc
    cases h
    exact ⟨_, _, hc, rfl, rfl⟩
  · cases h

theorem lt_size_of_content? {c : Content} (h : d.content? x = some c) : x < d.slots.size := by
  obtain ⟨n, hget, -⟩ := get?_of_content? h
  exact lt_size_of_isLive (isLive_of_get? hget)

/-! ## What readers make of names -/

/-- What a tag is known by, and whether it is a close tag. -/
def lettersAt? (d : Document) (x : NodeId) : Option (Bool × List Char) :=
  (d.tagAt? x).map (Prod.map id asciiLower)

/-- Whether the close tag `y` ends an element of the open tag `x`, by their names. -/
def goesWith (d : Document) (x y : NodeId) : Bool :=
  match d.lettersAt? x, d.lettersAt? y with
  | some (false, a), some (true, b) => a == b
  | _, _ => false

def isVoidTag (d : Document) (x : NodeId) : Bool :=
  match d.lettersAt? x with
  | some (false, a) => voidNames.contains a
  | _ => false

/-- Tags go together by their names like those of the first document, and none comes to be void. -/
def PairsAlike (d d' : Document) : Prop :=
  (∀ x < d.slots.size, ∀ y < d.slots.size, d'.goesWith x y = d.goesWith x y) ∧
    ∀ x < d.slots.size, d'.isVoidTag x = true → d.isVoidTag x = true

instance (d d' : Document) : Decidable (d.PairsAlike d') := inferInstanceAs (Decidable (_ ∧ _))

/-- Lowercasing the names of these tags changes letters of ASCII only. -/
def PlainAt (d : Document) (ts : List NodeId) : Prop :=
  ∀ x ∈ ts, ∀ c name, d.content? x = some c → c.nameToken? = some name → IsPlain name.chars

theorem PlainAt.letters (h : d.PlainAt ts) (x : NodeId) :
    (d.lowerNames ts).lettersAt? x = d.lettersAt? x := by
  rw [lettersAt?, lettersAt?, tagAt?_lowerNames]
  cases htag : d.tagAt? x with
  | none => rfl
  | some tag =>
    obtain ⟨c, name, hc, htoken, hname⟩ := exists_of_tagAt? htag
    by_cases hmem : x ∈ ts
    · have hplain : lowercase tag.2 = asciiLower tag.2 := hname ▸ h x hmem c name hc htoken
      simp only [if_pos hmem, Option.map_some, Prod.map, hplain, asciiLower_asciiLower, id]
    · simp only [if_neg hmem, Option.map_some, Prod.map, id]

theorem PlainAt.pairsAlike (h : d.PlainAt ts) : d.PairsAlike (d.lowerNames ts) := by
  refine ⟨fun x _ y _ => ?_, fun x _ => ?_⟩
  · rw [goesWith, goesWith, h.letters, h.letters]
  · rw [isVoidTag, isVoidTag, h.letters]
    exact id

def newNames (d : Document) (ts : List NodeId) (h : d.PairsAlike (d.lowerNames ts)) : Renaming where
  opened a a' := ∃ x, d.tagAt? x = some (false, a) ∧ (d.lowerNames ts).tagAt? x = some (false, a')
  closed b b' := ∃ y, d.tagAt? y = some (true, b) ∧ (d.lowerNames ts).tagAt? y = some (true, b')
  restyled := by
    rintro a a' (⟨x, ha, ha'⟩ | ⟨x, ha, ha'⟩) <;>
    · rw [tagAt?_lowerNames, ha, Option.map_some, Option.some.injEq, Prod.map, Prod.mk.injEq] at ha'
      rw [← ha'.2]
      split
      · exact Or.inr rfl
      · exact Or.inl rfl
  pairs := by
    rintro a a' b b' ⟨x, ha, ha'⟩ ⟨y, hb, hb'⟩
    obtain ⟨_, _, hx, -⟩ := exists_of_tagAt? ha
    obtain ⟨_, _, hy, -⟩ := exists_of_tagAt? hb
    have hpair := h.1 x (lt_size_of_content? hx) y (lt_size_of_content? hy)
    rw [Bool.eq_iff_iff] at hpair
    simp only [goesWith, lettersAt?, ha, ha', hb, hb', Option.map_some, Prod.map,
      id, beq_iff_eq] at hpair
    exact hpair
  void := by
    rintro a a' ⟨x, ha, ha'⟩ hvoid
    obtain ⟨_, _, hx, -⟩ := exists_of_tagAt? ha
    have hold := h.2 x (lt_size_of_content? hx)
    simp only [isVoidTag, lettersAt?, ha, ha', Option.map_some, Prod.map, id,
      List.contains_iff_mem] at hold
    exact hold hvoid

end Document

/-! ## Trees up to names -/

namespace Content

variable {c c' : Content}

theorem mapName_of_none (h : c.nameToken? = none) (f : List Char → List Char) :
    c.mapName f = c := by
  cases c with
  | openTag => cases h
  | closeTag => cases h
  | _ => rfl

theorem nameToken?_seen (move : Position → Position) (f : List Char → List Char) (c : Content) :
    ((c.relocate move).mapName f).nameToken? = c.nameToken?.map fun name =>
      (name.relocate move).mapChars f := by
  cases c <;> rfl

theorem nameToken?_relocate (move : Position → Position) (c : Content) :
    (c.relocate move).nameToken? = c.nameToken?.map (Token.relocate move) := by
  cases c <;> rfl

theorem shape_seen (move : Position → Position) (f : List Char → List Char) (c : Content) :
    ((c.relocate move).mapName f).shape = c.shape := by
  cases c <;> rfl

theorem relocate_eq_of_names {move : Position → Position} {f : List Char → List Char}
    (hlook : ((c'.relocate move).mapName fun _ => []) = (c.relocate move).mapName fun _ => [])
    (hnames : ∀ name name', c.nameToken? = some name → c'.nameToken? = some name' →
      name'.chars = f name.chars) :
    c'.relocate move = (c.mapName f).relocate move := by
  have htokens := congrArg nameToken? hlook
  rw [nameToken?_seen, nameToken?_seen] at htokens
  cases hname : c.nameToken? with
  | none =>
    rw [hname, Option.map_none, Option.map_eq_none_iff] at htokens
    rw [mapName_of_none (by rw [nameToken?_relocate, htokens]; rfl),
      mapName_of_none (by rw [nameToken?_relocate, hname]; rfl)] at hlook
    rw [mapName_of_none hname, hlook]
  | some name =>
    rw [hname, Option.map_some, Option.map_eq_some_iff] at htokens
    obtain ⟨name', hname', -⟩ := htokens
    have htext : name'.text = String.ofList (f name.chars) := by
      rw [← hnames name name' hname hname', Token.chars, String.ofList_toList]
    cases c with
    | openTag =>
      cases hname
      cases c' with
      | openTag =>
        cases hname'
        simp only [relocate, mapName, openTag.injEq, Token.mapChars, Token.relocate,
          Token.mk.injEq] at hlook ⊢
        exact ⟨hlook.1, ⟨htext, hlook.2.1.2⟩, hlook.2.2⟩
      | _ => simp [relocate, mapName] at hlook
    | closeTag =>
      cases hname
      cases c' with
      | closeTag =>
        cases hname'
        simp only [relocate, mapName, closeTag.injEq, Token.mapChars, Token.relocate,
          Token.mk.injEq] at hlook ⊢
        exact ⟨hlook.1, ⟨htext, hlook.2.1.2⟩, hlook.2.2⟩
      | _ => simp [relocate, mapName] at hlook
    | _ => cases hname

end Content

/-- The document with all nodes at one place and tags without names. -/
def Document.unnamed (d : Document) : Document :=
  d.seen (fun _ => .start) fun c => (c.relocate fun _ => .start).mapName fun _ => []

/-- Tags get other names, which do not count. -/
def Pruning.unnamed (ρ : Renaming) : Pruning where
  move _ := .start
  move_advance _ _ := rfl
  names := ρ
  key _ := []
  renames _ := ⟨rfl, fun _ => rfl⟩
  gone _ c := c.isBlank && !true
  keep := true

namespace Document

variable {d d' : Document} {ts : List NodeId} {x : NodeId}

theorem unnamed_ofPieces {ρ : Renaming} {ps ps' : List Piece}
    (h : List.Forall₂ (Piece.Renamed ρ) ps ps') :
    (ofPieces true ps').unnamed = (ofPieces true ps).unnamed := by
  have hseen := seen_ofPieces (.unnamed ρ) (fun _ _ _ _ => rfl) h
  have hself := ofPieces_eq_prune true ps
  rw [show (Pruning.unnamed ρ).gone = fun _ c => c.isBlank && !true from rfl, ← hself] at hseen
  exact hseen

theorem look_of_unnamed_eq (h : d'.unnamed = d.unnamed) (x : NodeId) :
    (d'.content? x).map (fun c => (c.relocate fun _ => .start).mapName fun _ => []) =
      (d.content? x).map fun c => (c.relocate fun _ => .start).mapName fun _ => [] := by
  have hcontents := congrArg (fun e : Document => e.content? x) h
  simpa only [unnamed, content?_seen] using hcontents

theorem root_of_unnamed_eq (h : d'.unnamed = d.unnamed) : d'.root = d.root := by
  have hroot := congrArg Document.root h
  exact hroot

theorem sameShape_of_unnamed_eq (h : d'.unnamed = d.unnamed) : d.SameShape d' := by
  refine ⟨root_of_unnamed_eq h, fun x => ?_⟩
  have hshape := congrArg (Option.map Content.shape) (look_of_unnamed_eq h x)
  simpa only [Option.map_map, Function.comp_def, Content.shape_seen] using hshape

theorem unplaced_eq_of_names (h : d'.unnamed = d.unnamed) (hd : d.Tabled) (hd' : d'.Tabled)
    (hnames : ∀ x c c', d.content? x = some c → d'.content? x = some c' → ∀ name name',
      c.nameToken? = some name → c'.nameToken? = some name' →
      name'.chars = (if x ∈ ts then lowercase else id) name.chars) :
    d'.unplaced = (d.lowerNames ts).unplaced := by
  have hsize := congrArg (fun e : Document => e.slots.size) h
  simp only [unnamed, size_seen] at hsize
  have hparents (x : NodeId) : d'.parent? x = d.parent? x := by
    have hparent := congrArg (fun e : Document => e.parent? x) h
    simpa only [unnamed, parent?_seen] using hparent
  refine unplaced_eq_retouch hd hd' (root_of_unnamed_eq h) hsize hparents fun x c c' hc hc' => ?_
  have hlook := look_of_unnamed_eq h x
  rw [hc, hc', Option.map_some, Option.map_some] at hlook
  exact Content.relocate_eq_of_names (Option.some.inj hlook) (hnames x c c' hc hc')

end Document

/-! ## Passes over names -/

def Document.AreTags (d : Document) (ts : List NodeId) : Prop :=
  ∀ t ∈ ts, ∃ c, d.content? t = some c ∧ c.nameToken?.isSome = true

namespace Document.AreTags

variable {d : Document} {ts : List NodeId}

theorem not_mem (h : d.AreTags ts) {x : NodeId} {c : Content} (hc : d.content? x = some c)
    (hnone : c.nameToken? = none) : x ∉ ts := by
  intro hmem
  obtain ⟨c', hc', htag⟩ := h x hmem
  rw [hc] at hc'
  cases hc'
  simp [hnone] at htag

theorem targets (h : d.AreTags ts) : d.Targets ts := by
  intro t ht
  obtain ⟨c, hc, htag⟩ := h t ht
  refine ⟨c, hc, ?_⟩
  cases c with
  | openTag => trivial
  | closeTag => trivial
  | _ => simp [Content.nameToken?] at htag

theorem noFlags (h : d.AreTags ts) : d.NoFlags ts := fun _ ht _ _ _ hc => h.not_mem hc rfl ht

end Document.AreTags

namespace Tracks

variable {d e : Document} {ts : List NodeId} {now : NodeId → NodeId} {a : NodeId}
  {present : NodeId → Prop}

theorem holdsTagPart_of_areTags (h : Tracks d e (d.mendedBy ts) present now)
    (hf : d.Forest [d.root]) (ht : d.AreTags ts) (ha : present a) {part : TagPart}
    (hp : d.HoldsTagPart a part) : e.HoldsTagPart (now a) part := by
  cases part with
  | blank t =>
    obtain ⟨content, hc, htext⟩ := hp
    exact ⟨content, (h.content?_leaf ha hc fun _ => rfl).1, htext⟩
  | erb erb => exact h.holdsErb ha hp
  | attr own =>
    obtain ⟨name, equals, value, hc, hname, hequals, hvalue⟩ := hp
    have hfresh : a ∉ d.mendedBy ts := by
      rw [Document.mem_mendedBy_iff ts hc (by simp)]
      exact ht.not_mem hc rfl
    obtain ⟨hc', hpresent⟩ := h.content?_fresh ha hfresh hc
    refine ⟨name, equals, value.map now, hc', hname, hequals, ?_⟩
    generalize own.value = v at hvalue
    cases hvalue with
    | none => exact .none
    | @some c v hv =>
      have hfresh : c ∉ ts := by
        obtain ⟨openQuote, children, closeQuote, hc, -⟩ := id hv
        exact ht.not_mem hc rfl
      exact .some
        (h.holdsValue_fresh hf ht.targets (hpresent c (by simp [Content.children])) hfresh hv)

theorem holdsTagParts_of_areTags (h : Tracks d e (d.mendedBy ts) present now)
    (hf : d.Forest [d.root]) (ht : d.AreTags ts) {children : List NodeId} {parts : List TagPart}
    (hparts : List.Forall₂ d.HoldsTagPart children parts) (hpresent : ∀ c ∈ children, present c) :
    List.Forall₂ e.HoldsTagPart (children.map now) parts := by
  induction hparts with
  | nil => exact .nil
  | cons hpart _ ih =>
    rw [List.forall_mem_cons] at hpresent
    exact .cons (h.holdsTagPart_of_areTags hf ht hpresent.1 hpart) (ih hpresent.2)

variable (hnames : d.PairsAlike (d.lowerNames ts))
include hnames

theorem holdsPiece_renamed (h : Tracks d e (d.mendedBy ts) present now)
    (hf : d.Forest [d.root]) (ht : d.AreTags ts) (ha : present a) {p : Piece}
    (hp : d.HoldsPiece a p) :
    ∃ p', p.Renamed (d.newNames ts hnames) p' ∧ e.HoldsPiece (now a) p' := by
  cases p with
  | text t =>
    obtain ⟨content, hc, htext⟩ := hp
    exact ⟨_, .same (by simp) (by simp), content, (h.content?_leaf ha hc fun _ => rfl).1, htext⟩
  | erb erb => exact ⟨_, .same (by simp) (by simp), h.holdsErb ha hp⟩
  | comment t =>
    obtain ⟨opening, content, closing, hc, htexts⟩ := hp
    exact ⟨_, .same (by simp) (by simp), opening, content, closing,
      (h.content?_leaf ha hc fun _ => rfl).1, htexts⟩
  | doctype t =>
    obtain ⟨opening, content, closing, hc, htexts⟩ := hp
    exact ⟨_, .same (by simp) (by simp), opening, content, closing,
      (h.content?_leaf ha hc fun _ => rfl).1, htexts⟩
  | openTag t =>
    obtain ⟨opening, name, children, closing, hc, hopening, hname, hparts, hclosing⟩ := hp
    obtain ⟨name', hc', hname', hpresent⟩ := h.content?_openTag ha hc
    have htag : d.tagAt? a = some (false, t.name) := by simp only [Document.tagAt?, hc, hname]
    have hopened : (d.newNames ts hnames).opened t.name name'.chars := by
      refine ⟨a, htag, ?_⟩
      rw [Document.tagAt?_lowerNames, htag, hname', hname]
      split <;> rfl
    exact ⟨_, .openTag hopened, opening, name', _, closing, hc', hopening, rfl,
      h.holdsTagParts_of_areTags hf ht hparts hpresent, hclosing⟩
  | closeTag t =>
    obtain ⟨opening, name, trailing, closing, hc, hopening, hname, htrailing, hclosing⟩ := hp
    obtain ⟨name', hc', hname'⟩ := h.content?_closeTag ha hc
    have htag : d.tagAt? a = some (true, t.name) := by simp only [Document.tagAt?, hc, hname]
    have hclosed : (d.newNames ts hnames).closed t.name name'.chars := by
      refine ⟨a, htag, ?_⟩
      rw [Document.tagAt?_lowerNames, htag, hname', hname]
      split <;> rfl
    exact ⟨_, .closeTag hclosed, opening, name', trailing, closing, hc', hopening,
      rfl, htrailing, hclosing⟩

theorem holdsPieces_renamed (h : Tracks d e (d.mendedBy ts) present now)
    (hf : d.Forest [d.root]) (ht : d.AreTags ts) {leaves : List NodeId} {ps : List Piece}
    (hps : List.Forall₂ d.HoldsPiece leaves ps) (hpresent : ∀ y ∈ leaves, present y) :
    ∃ ps', List.Forall₂ (Piece.Renamed (d.newNames ts hnames)) ps ps' ∧
      List.Forall₂ e.HoldsPiece (leaves.map now) ps' := by
  induction hps with
  | nil => exact ⟨[], .nil, .nil⟩
  | cons hp _ ih =>
    rw [List.forall_mem_cons] at hpresent
    obtain ⟨p', hrenamed, hholds⟩ := h.holdsPiece_renamed hnames hf ht hpresent.1 hp
    obtain ⟨ps', hrenameds, hrest⟩ := ih hpresent.2
    exact ⟨p' :: ps', .cons hrenamed hrenameds, .cons hholds hrest⟩

end Tracks

/-- The text of a document whose names were mended is read as the document that was to come of
it. -/
theorem Tracks.reread_lowerNames {ps : List Piece} (hps : Readable [] ps)
    {e : Document} {ts : List NodeId} {now : NodeId → NodeId}
    (h : Tracks (.ofPieces true ps) e ((Document.ofPieces true ps).mendedBy ts)
      ((Document.ofPieces true ps).isLive · = true) now)
    (ht : (Document.ofPieces true ps).AreTags ts)
    (hnames : (Document.ofPieces true ps).PairsAlike ((Document.ofPieces true ps).lowerNames ts)) :
    ∃ ps', readPieces [] e.print.toList = .ok ps' ∧
      (Document.ofPieces true ps').unplaced =
        ((Document.ofPieces true ps).lowerNames ts).unplaced := by
  have hf := (sound_ofPieces true ps).1
  have htabled := Document.tabled_ofPieces ps
  have hunnamed {ρ : Renaming} {ps' : List Piece} (hr : List.Forall₂ (Piece.Renamed ρ) ps ps') :=
    Document.unnamed_ofPieces hr
  obtain ⟨children, hroot, leaves, hleaves, hheld⟩ := holds_ofPieces ps
  generalize Document.ofPieces true ps = d at *
  -- The pieces of the mended document are those of `d` with other names.
  obtain ⟨hroot', hrows, hall⟩ := h.rows hf ht.targets hroot hleaves hheld
  obtain ⟨ps', hrenamed, hholds⟩ := h.holdsPieces_renamed hnames hf ht hheld hall
  have he : e.Holds ps' := ⟨_, hroot', _, hrows, hholds⟩
  refine ⟨ps', ?_, ?_⟩
  · refine readPieces_eq_ok_iff.mpr ⟨hps.renamed hrenamed .nil, ?_⟩
    rw [Document.print, String.toList_ofList]
    exact (he.text_root h.forest.grounded).symm
  · have hsame := hunnamed hrenamed
    have hshape := Document.sameShape_of_unnamed_eq hsame
    refine Document.unplaced_eq_of_names hsame htabled (Document.tabled_ofPieces ps') ?_
    intro x c c' hc hc' name name' hname hname'
    obtain ⟨n, hget, -⟩ := Document.get?_of_content? hc
    have hrole := h.sameRole ht.noFlags hshape (sound_ofPieces true ps').1 hroot hleaves
      hholds (holds_ofPieces ps')
      (Document.isLive_of_get? hget)
    obtain ⟨c'', hc'', hcontent⟩ := hshape.content?_some hc
    rw [hc'] at hc''
    cases hc''
    obtain ⟨children', hroot'', -⟩ := holds_ofPieces ps'
    rw [h.reread_name hroot'' hc hc' hrole hcontent hname hname']
    split <;> rfl

/-! ## The rule on tag names -/

def Linter.offered (l : Linter) (d : Document) : List NodeId :=
  (l.lint d).value.offenses.filterMap Offense.aim

theorem Rules.TagName.nameToken?_of_lowerTag? {c : Content} (h : (lowerTag? c).isSome = true) :
    c.nameToken?.isSome = true := by
  cases c with
  | openTag => rfl
  | closeTag => rfl
  | _ => cases h

theorem Linter.mended_tagName {l : Linter}
    (hrules : l.rules.map ActiveRule.rule = [Rules.tagName]) {d : Document} {ps : List Piece}
    (hd : d.Holds ps) (hf : d.Forest [d.root]) (mode : FixMode) :
    ∃ ts, FixPass.Mended d (l.pass mode d) ts ∧ d.AreTags ts ∧ ∀ x, x ∈ ts ↔ x ∈ l.offered d := by
  obtain ⟨a, hl, hrule⟩ := List.map_eq_singleton_iff.mp hrules
  have hraw : l.raw d = (a.run d d.directives l.context).offenses := by
    rw [raw, hl, List.flatMap_singleton]
  have hoffers {o : Offense} (ho : o ∈ (l.lint d).value.offenses) :=
    ActiveRule.offers_tagName hrule (hraw ▸ (mem_offenses_lint.mp ho).1)
  have hmem : a ∈ l.rules := by rw [hl]; exact List.mem_singleton_self a
  have hpreset : ∀ b ∈ l.rules, b.rule ∈ Rules.Preset.recommended.rules := by
    simp [hl, hrule, Rules.Preset.rules, Rules.documentRules]
  have haims : ((l.lint d).value.offenses.map Offense.aim).Nodup := by
    refine ((perm_offenses_lint l d).map _).nodup_iff.mpr
      (List.Nodup.sublist (List.filter_sublist.map _) ?_)
    rw [hraw]
    exact ActiveRule.nodup_aims_tagName hrule hf
  have hmends : ∀ o ∈ (l.lint d).value.offenses, ∃ t fix, o.fix = some ⟨t, .safe⟩ ∧
      l.fix? o.rule = some fix ∧ Mends fix d t := by
    intro o ho
    obtain ⟨x, n, hn, hoffer, hlower⟩ := hoffers ho
    refine ⟨x, _, hoffer.fix, ?_, Rules.TagName.mends hd hn hlower⟩
    rw [hoffer.rule]
    exact fix?_of_mem hpreset hmem hrule
  obtain ⟨ts, hmended, hts⟩ := FixPass.mended_run hf mode haims hmends
  have hiff (x : NodeId) : x ∈ ts ↔ x ∈ l.offered d := by
    rw [← List.mem_map_of_injective (Option.some_injective _), hts, List.mem_reverse,
      offered, List.mem_filterMap, List.mem_map]
  rw [← (forgets_of_recommended hpreset).pass_eq] at hmended
  refine ⟨ts, hmended, fun t ht => ?_, hiff⟩
  obtain ⟨o, ho, haim⟩ := List.mem_filterMap.mp ((hiff t).mp ht)
  obtain ⟨x, n, hn, hoffer, hlower⟩ := hoffers ho
  obtain rfl : x = t := Option.some.inj (hoffer.aim_eq.symm.trans haim)
  exact ⟨_, Document.content?_of_get? hn, Rules.TagName.nameToken?_of_lowerTag? hlower⟩

theorem Document.lowerNames_congr (d : Document) {ts ts' : List NodeId}
    (h : ∀ x, x ∈ ts' ↔ x ∈ ts) :
    d.lowerNames ts' = d.lowerNames ts := by
  simp only [lowerNames, h]

/-- The text after a pass is read as the tree with reported names in lowercase, if tags pair as
before. -/
theorem parse_lowerNames {l : Linter} (hrules : l.rules.map ActiveRule.rule = [Rules.tagName])
    (hblanks : l.keepBlanks = true) {source : String} {d : Document}
    (hparse : l.parse source = .ok d) :
    (d.PlainAt (l.offered d) → d.PairsAlike (d.lowerNames (l.offered d))) ∧
      (d.PairsAlike (d.lowerNames (l.offered d)) →
        ∃ d', l.parse (l.pass .safeOnly d).document.print = .ok d' ∧
          d'.unplaced = (d.lowerNames (l.offered d)).unplaced) := by
  refine ⟨Document.PlainAt.pairsAlike, fun hnames => ?_⟩
  rw [Linter.parse, hblanks] at hparse
  obtain ⟨ps, hread, rfl⟩ := exists_readPieces_of_parse hparse
  obtain ⟨ts, hmended, htags, hiff⟩ :=
    Linter.mended_tagName hrules (holds_ofPieces ps) (sound_ofPieces true ps).1 .safeOnly
  obtain ⟨now, htracks⟩ := hmended.tracks
  rw [← Document.lowerNames_congr _ hiff] at hnames ⊢
  obtain ⟨ps', hread', hsame⟩ :=
    htracks.reread_lowerNames (readPieces_eq_ok_iff.mp hread).1 htags hnames
  exact ⟨_, Linter.parse_of_readPieces hblanks hread', hsame⟩

/-- Two tags with an accent are mended; one inside `svg` and one on a hidden line are not. -/
theorem parse_lowerNames_accent :
    let source := "<DIVÉ><svg><lin\u212A></svg></DIVÉ>\n<P><%# herb:disable all %></p>"
    let l : Linter := ⟨[{ rule := Rules.tagName }], {}, 1, true⟩
    ∃ d, l.parse source = .ok d ∧ (∀ x, x ∈ l.offered d ↔ x ∈ [0, 6]) ∧
      d.PairsAlike (d.lowerNames (l.offered d)) ∧
        ∃ d', l.parse (l.pass .safeOnly d).document.print = .ok d' ∧
        d'.unplaced = (d.lowerNames (l.offered d)).unplaced := by
  intro source l
  have hcheck : (l.parse source).toOption.any (fun d =>
      (((l.raw d).filter fun o => decide (¬ o.IsSilenced d.directives)).filterMap Offense.aim ==
        [0, 6]) &&
        decide (d.PairsAlike (d.lowerNames [0, 6]))) = true := by
    decide +kernel
  obtain ⟨d, hparse, hd⟩ := exists_ok_of_any hcheck
  rw [Bool.and_eq_true, beq_iff_eq, decide_eq_true_iff] at hd
  have hoffered (x : NodeId) : x ∈ l.offered d ↔ x ∈ [0, 6] := by
    rw [Linter.offered, ((Linter.perm_offenses_lint l d).filterMap _).mem_iff, hd.1]
  have hnames : d.PairsAlike (d.lowerNames (l.offered d)) := by
    rw [d.lowerNames_congr hoffered]
    exact hd.2
  exact ⟨d, hparse, hoffered, hnames, (parse_lowerNames rfl rfl hparse).2 hnames⟩

/-- A name with a Kelvin sign becomes that of a void element, so the text behind the tag leaves the
element. -/
theorem lowerNames_makes_void :
    let l : Linter := ⟨[{ rule := Rules.tagName }], {}, 1, true⟩
    ∃ d d', l.parse "<lin\u212A>x" = .ok d ∧ l.offered d = [0] ∧
      l.parse (l.pass .safeOnly d).document.print = .ok d' ∧
      d.children d.root = [2] ∧ d'.children d'.root = [1, 2] ∧
      d'.unplaced ≠ (d.lowerNames (l.offered d)).unplaced := by
  intro l
  have hcheck : (l.parse "<lin\u212A>x").toOption.any (fun d =>
      (l.offered d == [0]) && (d.children d.root == [2]) &&
        (l.parse (l.pass .safeOnly d).document.print).toOption.any fun d' =>
          (d'.children d'.root == [1, 2]) &&
            decide (d'.unplaced ≠ (d.lowerNames [0]).unplaced)) = true := by
    decide +kernel
  obtain ⟨d, hparse, hd⟩ := exists_ok_of_any hcheck
  simp only [Bool.and_eq_true, beq_iff_eq] at hd
  obtain ⟨⟨hoffered, hchildren⟩, hreread⟩ := hd
  obtain ⟨d', hparse', hd'⟩ := exists_ok_of_any hreread
  rw [Bool.and_eq_true, beq_iff_eq, decide_eq_true_iff] at hd'
  refine ⟨d, d', hparse, hoffered, hparse', hchildren, hd'.1, ?_⟩
  rw [hoffered]
  exact hd'.2

end TemplateLint
