import TemplateLint.Proofs.HeldPieces
import TemplateLint.Proofs.Lockstep
import TemplateLint.Proofs.Reports
import TemplateLint.Proofs.Suppression

/-!
# Two lints of one template

A template is read, fixed and read again. The second document has the nodes of the first one, so a
walk meets them in the same order, directives hide the same lines, and what was not fixed is
reported as before. Main statements: `Reread.tagName_check`, `Reread.quotedValue_check` and
`isSilenced_iff_of_alike`.
-/

namespace TemplateLint

open Markup Text

/-! ## Lists side by side -/

section Lists

variable {α β γ δ : Type} {R : α → β → Prop} {S : γ → δ → Prop}

theorem forall₂_flatMap {as : List α} {bs : List β} (h : List.Forall₂ R as bs)
    {f : α → List γ} {g : β → List δ} (hfg : ∀ a b, R a b → List.Forall₂ S (f a) (g b)) :
    List.Forall₂ S (as.flatMap f) (bs.flatMap g) := by
  induction h with
  | nil => exact .nil
  | cons hab _ ih => exact List.rel_append (hfg _ _ hab) ih

theorem forall₂_filter_flatMap {as : List α} {bs : List β} (h : List.Forall₂ R as bs) (q : γ → Bool)
    {f : α → List γ} {g : β → List δ} (hfg : ∀ a b, R a b → List.Forall₂ S ((f a).filter q) (g b)) :
    List.Forall₂ S ((as.flatMap f).filter q) (bs.flatMap g) := by
  rw [List.filter_flatMap]
  exact forall₂_flatMap h hfg

theorem forall_mem_of_forall₂ {as : List α} {bs : List β} (h : List.Forall₂ R as bs)
    {p : α → Prop} {q : β → Prop} (ha : ∀ a ∈ as, p a) (hpq : ∀ a b, R a b → p a → q b) :
    ∀ b ∈ bs, q b := by
  induction h with
  | nil => simp
  | cons hab _ ih =>
    rw [List.forall_mem_cons] at ha ⊢
    exact ⟨hpq _ _ hab ha.1, ih ha.2⟩

end Lists

/-! ## Walks -/

structure Seen (d d' : Document) (v v' : Visit) : Prop where
  id : v'.id = v.id
  node : v.node.Alike v'.node
  here : d.get? v.id = some v.node
  there : d'.get? v.id = some v'.node

variable {d d' : Document}

theorem seen_visitsTo (h : d.Alike d') {skip skip' : Visit → Bool}
    (hskip : ∀ v v', Seen d d' v v' → skip' v' = skip v) (depth : Nat)
    (ancestors ancestors' : List NodeId) (id : NodeId) :
    List.Forall₂ (Seen d d') (d.visitsTo skip depth ancestors id)
      (d'.visitsTo skip' depth ancestors' id) := by
  induction depth generalizing ancestors ancestors' id with
  | zero => exact .nil
  | succ depth ih =>
    cases hget : d.get? id with
    | none =>
      rw [Document.visitsTo_of_none hget, Document.visitsTo_of_none (h.get?_none hget)]
      exact .nil
    | some n =>
      obtain ⟨n', hget', hn⟩ := h.get?_some hget
      have hseen : Seen d d' ⟨id, n, ancestors⟩ ⟨id, n', ancestors'⟩ := ⟨rfl, hn, hget, hget'⟩
      rw [Document.visitsTo_succ hget, Document.visitsTo_succ hget', hskip _ _ hseen]
      refine .cons hseen ?_
      split
      · exact .nil
      · rw [show n'.children = n.children from hn.content.children]
        refine forall₂_flatMap (List.forall₂_same.mpr fun _ _ => rfl) ?_
        rintro c _ rfl
        exact ih _ _ c

theorem seen_visits (h : d.Alike d') {skip skip' : Visit → Bool}
    (hskip : ∀ v v', Seen d d' v v' → skip' v' = skip v) :
    List.Forall₂ (Seen d d') (d.visits skip) (d'.visits skip') := by
  rw [Document.visits_eq, Document.visits_eq, h.size, h.root]
  exact seen_visitsTo h hskip _ _ _ _

/-! ## Directives -/

/-- The directives name the same rules on the same lines. -/
structure Directive.Alike (a b : Directive) : Prop where
  matched : b.matched = a.matched
  names : b.names = a.names
  lines : a.location.SameLines b.location

theorem Directive.alike_ofList {id id' : NodeId}
    {location location' contentLocation contentLocation' : Location}
    (hlines : location.SameLines location') (here here' : Position) (list : List Char) :
    (ofList id location contentLocation here list).Alike
      (ofList id' location' contentLocation' here' list) := by
  have hbranches (b : Bool) {x y x' y' : Directive} (hx : x.Alike x') (hy : y.Alike y') :
      (if b then x else y).Alike (if b then x' else y') := by
    cases b <;> assumption
  exact hbranches _ ⟨rfl, (Entry.names_ofPieces _ _).trans (Entry.names_ofPieces _ _).symm,
    hlines⟩ ⟨rfl, rfl, hlines⟩

theorem Directive.alike_ofComment? {id id' : NodeId} {location location' : Location}
    {content content' : Token} (hlines : location.SameLines location')
    (htext : content'.text = content.text) :
    Option.Rel Directive.Alike (ofComment? id location content)
      (ofComment? id' location' content') := by
  have hchars : content'.chars = content.chars := by rw [Token.chars, Token.chars, htext]
  unfold ofComment?
  simp only [hchars]
  split
  · exact .some (alike_ofList hlines _ _ _)
  · exact .none

theorem Directive.alike_ofNode? {id id' : NodeId} {n n' : Node} (h : n.Alike n') :
    Option.Rel Directive.Alike (ofNode? id n) (ofNode? id' n') := by
  obtain ⟨location, content⟩ := n
  obtain ⟨location', content'⟩ := n'
  obtain ⟨hlines, hcontent⟩ := h
  cases hcontent with
  | @erb opening opening' content content' closing closing' hopening htext =>
    have hcomment : (Content.erb opening' content' closing').isErbComment =
        (Content.erb opening content closing).isErbComment := by
      rw [Content.isErbComment, Content.isErbComment, hopening]
    change Option.Rel Directive.Alike
      (if (Content.erb opening content closing).isErbComment
        then ofComment? id location content else none)
      (if (Content.erb opening' content' closing').isErbComment
        then ofComment? id' location' content' else none)
    rw [hcomment]
    split
    · exact alike_ofComment? hlines htext
    · exact .none
  | comment htext => exact alike_ofComment? hlines htext
  | _ => exact .none

theorem alike_directives (h : d.Alike d') :
    List.Forall₂ Directive.Alike d.directives d'.directives := by
  refine List.rel_filterMap ?_ (seen_visits h fun _ _ _ => rfl)
  intro v v' hv
  exact Directive.alike_ofNode? hv.node

/-- The offenses break one rule on one line, and name the same node as mendable. -/
structure Offense.Alike (o o' : Offense) : Prop where
  rule : o'.rule = o.rule
  line : o'.location.start.line = o.location.start.line
  suppressible : o'.isSuppressible = o.isSuppressible
  fix : o'.fix = o.fix

theorem isSilenced_iff_of_alike {directives directives' : List Directive}
    (h : List.Forall₂ Directive.Alike directives directives') {o o' : Offense} (ho : o.Alike o') :
    o'.IsSilenced directives' ↔ o.IsSilenced directives := by
  have hhides {a b : Directive} (hab : a.Alike b) :
      (b.disables o'.rule = true ∧ b.inScope o'.location = true) ↔
        (a.disables o.rule = true ∧ a.inScope o.location = true) := by
    simp only [Directive.disables, Directive.disablesEvery, Directive.inScope, Location.touchesLine,
      hab.matched, hab.names, hab.lines.start, hab.lines.stop, ho.rule, ho.line]
  rw [Offense.IsSilenced, Offense.IsSilenced, ho.suppressible]
  apply and_congr_right
  intro _
  induction h with
  | nil => simp
  | cons hab _ ih => simp only [List.exists_mem_cons_iff, hhides hab, ih]

/-! ## Offenses -/

def Content.nameToken? : Content → Option Token
  | .openTag _ name _ _ => some name
  | .closeTag _ name _ _ => some name
  | _ => none

/-- The second document was read from the text of the first one after the fixes of some nodes. -/
structure Reread (d d' : Document) (ts : List NodeId) : Prop where
  alike : d.Alike d'
  name : ∀ x n n', d.get? x = some n → d'.get? x = some n' →
    ∀ name name', n.content.nameToken? = some name → n'.content.nameToken? = some name' →
      IsPlain name.chars ∧ name'.chars = if x ∈ ts then lowercase name.chars else name.chars
  quote : ∀ x n n', d.get? x = some n → d'.get? x = some n' →
    ∀ openQuote openQuote' children children' closeQuote closeQuote',
      n.content = .attrValue openQuote children closeQuote →
        n'.content = .attrValue openQuote' children' closeQuote' →
        (openQuote' = none ↔ openQuote = none ∧ x ∉ ts)

def Offense.spares (ts : List NodeId) (o : Offense) : Bool :=
  o.fix.all fun target => !ts.contains target.node

theorem Offense.Offers.spares_iff {o : Offense} {rule : Descriptor}
    {x : NodeId} (h : o.Offers rule x) (ts : List NodeId) : o.spares ts = true ↔ x ∉ ts := by
  simp [spares, h.fix]

variable {ts : List NodeId} {x : NodeId}

namespace Rules.TagName

theorem lowered?_of_chars {name name' : Token} (hplain : IsPlain name.chars)
    (hchars : name'.chars = lowercase name.chars) :
    lowered? name'.text = none := by
  have hlower : Case.lower name'.text = name'.text := by
    apply String.toList_inj.mp
    rw [toList_lower, show name'.text.toList = _ from hchars, hplain.lowercase_lowercase]
  rw [lowered?, hlower]
  exact if_pos rfl

theorem alike_nameOffense (make : String → String → String) {name name' : Token}
    (hplain : IsPlain name.chars) (hline : name'.location.start.line = name.location.start.line)
    (hchars : name'.chars = if x ∈ ts then lowercase name.chars else name.chars) :
    List.Forall₂ Offense.Alike
      (((lowered? name.text).toList.map fun lower =>
        descriptor.fixable (make name.text lower) name.location x).filter (Offense.spares ts))
      ((lowered? name'.text).toList.map fun lower =>
        descriptor.fixable (make name'.text lower) name'.location x) := by
  have hspares (lower : String) :
      (descriptor.fixable (make name.text lower) name.location x).spares ts = true ↔ x ∉ ts :=
    Offense.Offers.spares_iff ⟨rfl, rfl⟩ ts
  by_cases hmem : x ∈ ts
  · rw [if_pos hmem] at hchars
    rw [lowered?_of_chars hplain hchars]
    cases lowered? name.text with
    | none => exact .nil
    | some lower => simp [hspares, hmem]
  · rw [if_neg hmem] at hchars
    rw [String.toList_inj.mp hchars]
    cases lowered? name.text with
    | none => exact .nil
    | some lower =>
      simp only [Option.toList_some, List.map_cons, List.map_nil, List.filter_cons,
        (hspares lower).mpr hmem, if_true, List.filter_nil]
      exact .cons ⟨rfl, hline, rfl, rfl⟩ .nil

end Rules.TagName

namespace Rules.QuotedValue

theorem isAttrValue_of_alike {c c' : Content} (h : c.Alike c') :
    isAttrValue c' = isAttrValue c := by
  cases h <;> rfl

theorem isSuppressible_offense (name value : String) (location : Location) (x : NodeId) :
    (descriptor.fixable (message name value) location x).isSuppressible = true := by
  have hrule : directiveRuleStem.toList.isPrefixOf descriptor.name.toList =
      false := by decide +kernel
  have hmessage : internalErrorStem.toList.isPrefixOf (message name value).toList = false := by
    have hstart : "Attribute value should be quoted: `".toList =
        'A' :: "ttribute value should be quoted: `".toList := by
      simp
    unfold message
    simp only [toString, String.append_assoc]
    rw [String.toList_append, hstart]
    simp [internalErrorStem, List.isPrefixOf]
  simp [Offense.isSuppressible, Descriptor.fixable, Descriptor.offense, hrule, hmessage]

end Rules.QuotedValue

theorem Document.Alike.tagName? (h : d.Alike d') (x : NodeId) :
    Option.Rel (fun a b => asciiLower b.toList = asciiLower a.toList)
      (d.tagName? x) (d'.tagName? x) := by
  unfold Document.tagName?
  cases hget : d.get? x with
  | none =>
    rw [h.get?_none hget]
    exact .none
  | some n =>
    obtain ⟨n', hget', -, hcontent⟩ := h.get?_some hget
    rw [hget']
    obtain ⟨location, content⟩ := n
    obtain ⟨location', content'⟩ := n'
    cases hcontent with
    | element first =>
      simp only
      cases hfirst : d.get? first with
      | none =>
        rw [h.get?_none hfirst]
        exact .none
      | some tag =>
        obtain ⟨tag', hfirst', -, htag⟩ := h.get?_some hfirst
        rw [hfirst']
        obtain ⟨place, content⟩ := tag
        obtain ⟨place', content'⟩ := tag'
        cases htag with
        | openTag _ hname => exact .some hname
        | _ => exact .none
    | _ => exact .none

theorem Document.Alike.isSvg (h : d.Alike d') (x : NodeId) :
    Rules.TagName.isSvg d' x = Rules.TagName.isSvg d x := by
  have hname := h.tagName? x
  unfold Rules.TagName.isSvg
  generalize d.tagName? x = name at hname
  generalize d'.tagName? x = name' at hname
  cases hname with
  | none => rfl
  | some hsame => simp [sameLetters, hsame]

namespace Reread

variable (h : Reread d d' ts)
include h

theorem checkTag {n n' : Node} (hx : d.get? x = some n) (hx' : d'.get? x = some n') :
    List.Forall₂ Offense.Alike ((Rules.TagName.checkTag x n.content).filter (Offense.spares ts))
      (Rules.TagName.checkTag x n'.content) := by
  have halike := (h.alike.node hx hx').content
  have hname := h.name x n n' hx hx'
  obtain ⟨location, content⟩ := n
  obtain ⟨location', content'⟩ := n'
  cases halike with
  | openTag children _ hline =>
    obtain ⟨hplain, hchars⟩ := hname _ _ rfl rfl
    exact Rules.TagName.alike_nameOffense Rules.TagName.openOffense hplain hline hchars
  | closeTag hline =>
    obtain ⟨hplain, hchars⟩ := hname _ _ rfl rfl
    exact Rules.TagName.alike_nameOffense Rules.TagName.closeOffense hplain hline hchars
  | _ => exact .nil

theorem checkOwnTag {isOwn : Content → Bool}
    (hown : ∀ {c c'}, Content.Alike c c' → isOwn c' = isOwn c) (x : NodeId) :
    List.Forall₂ Offense.Alike ((Rules.TagName.checkOwnTag d isOwn x).filter (Offense.spares ts))
      (Rules.TagName.checkOwnTag d' isOwn x) := by
  unfold Rules.TagName.checkOwnTag
  cases hget : d.get? x with
  | none =>
    rw [h.alike.get?_none hget]
    exact .nil
  | some n =>
    obtain ⟨n', hget', -⟩ := h.alike.get?_some hget
    simp only [hget', hown (h.alike.node hget hget').content]
    split
    · exact h.checkTag hget hget'
    · exact .nil

theorem tagName_checkVisit {v v' : Visit} (hv : Seen d d' v v') :
    List.Forall₂ Offense.Alike ((Rules.TagName.checkVisit d v).filter (Offense.spares ts))
      (Rules.TagName.checkVisit d' v') := by
  have htag := h.checkTag hv.here hv.there
  obtain ⟨id, ⟨location, content⟩, ancestors⟩ := v
  obtain ⟨id', ⟨location', content'⟩, ancestors'⟩ := v'
  obtain rfl : id' = id := hv.id
  cases hv.node.content with
  | element first body last =>
    simp only [Rules.TagName.checkVisit, h.alike.isSvg]
    split
    · rw [List.filter_append]
      refine List.rel_append (h.checkOwnTag Content.Alike.isOpenTag first) ?_
      refine forall₂_filter_flatMap (List.forall₂_same.mpr fun _ _ => rfl) _ ?_
      rintro y _ rfl
      exact h.checkOwnTag Content.Alike.isCloseTag y
    · exact .nil
  | _ => exact htag

theorem tagName_check :
    List.Forall₂ Offense.Alike ((Rules.TagName.check d).filter (Offense.spares ts))
      (Rules.TagName.check d') := by
  refine forall₂_filter_flatMap (seen_visits h.alike ?_) _ fun _ _ => h.tagName_checkVisit
  intro v v' hv
  rw [hv.id]
  exact h.alike.isSvg v.id

theorem quotedValue_checkVisit {v v' : Visit} (hv : Seen d d' v v') :
    List.Forall₂ Offense.Alike ((Rules.QuotedValue.checkVisit d v).filter (Offense.spares ts))
      (Rules.QuotedValue.checkVisit d' v') := by
  have hquote := h.quote v.id v.node v'.node hv.here hv.there
  obtain ⟨id, ⟨location, content⟩, ancestors⟩ := v
  obtain ⟨id', ⟨location', content'⟩, ancestors'⟩ := v'
  obtain rfl : id' = id := hv.id
  have hlines := hv.node.lines
  cases hv.node.content with
  | @attrValue openQuote openQuote' closeQuote closeQuote' children =>
    have hquote := hquote _ _ _ _ _ _ rfl rfl
    cases openQuote with
    | some mark =>
      obtain ⟨mark', rfl⟩ := Option.ne_none_iff_exists'.mp fun hnone =>
        absurd (hquote.mp hnone).1 (by simp)
      exact .nil
    | none =>
      cases children with
      | nil => cases openQuote' <;> exact .nil
      | cons first rest =>
        by_cases hmem : id' ∈ ts
        · obtain ⟨mark', rfl⟩ := Option.ne_none_iff_exists'.mp fun hnone => (hquote.mp hnone).2 hmem
          simp only [Rules.QuotedValue.checkVisit]
          rw [List.filter_cons_of_neg, List.filter_nil]
          · exact .nil
          · rw [Offense.Offers.spares_iff ⟨rfl, rfl⟩]
            exact not_not.mpr hmem
        · obtain rfl := hquote.mpr ⟨rfl, hmem⟩
          simp only [Rules.QuotedValue.checkVisit]
          rw [List.filter_cons_of_pos, List.filter_nil]
          · refine .cons ⟨rfl, hlines.start, ?_, rfl⟩ .nil
            rw [Rules.QuotedValue.isSuppressible_offense, Rules.QuotedValue.isSuppressible_offense]
          · rwa [Offense.Offers.spares_iff ⟨rfl, rfl⟩]
  | _ => exact .nil

theorem quotedValue_check :
    List.Forall₂ Offense.Alike ((Rules.QuotedValue.check d).filter (Offense.spares ts))
      (Rules.QuotedValue.check d') := by
  refine forall₂_filter_flatMap (seen_visits h.alike ?_) _ fun _ _ => h.quotedValue_checkVisit
  intro v v' hv
  exact Rules.QuotedValue.isAttrValue_of_alike hv.node.content

end Reread

/-! ## The second document -/

def Token.blank : Token := ⟨"", .start, .start⟩

def Content.shape : Content → Content
  | openTag _ _ children _ => openTag .blank .blank children .blank
  | closeTag _ _ _ _ => closeTag .blank .blank none .blank
  | attr _ _ value => attr .blank none value
  | attrValue _ children _ => attrValue none children none
  | literal _ => literal .blank
  | text _ => text .blank
  | whitespace _ => whitespace .blank
  | erb _ _ _ => erb .blank .blank .blank
  | comment _ _ _ => comment .blank .blank .blank
  | doctype _ _ _ => doctype .blank .blank .blank
  | inner => inner

theorem Content.children_shape (c : Content) : c.shape.children = c.children := by
  cases c <;> rfl

theorem Content.Alike.shape_eq {c c' : Content} (h : c.Alike c') : c'.shape = c.shape := by
  cases h <;> rfl

/-- The documents have nodes of the same kinds in the same places of one tree. -/
structure Document.SameShape (d d' : Document) : Prop where
  root : d'.root = d.root
  content : ∀ x, (d'.content? x).map Content.shape = (d.content? x).map Content.shape

theorem Document.Alike.sameShape (h : d.Alike d') : d.SameShape d' := by
  refine ⟨h.root, fun x => ?_⟩
  rw [Document.content?, Document.content?]
  cases hget : d.get? x with
  | none => rw [h.get?_none hget]
  | some n =>
    obtain ⟨n', hget', hn⟩ := h.get?_some hget
    rw [hget']
    exact congrArg some hn.content.shape_eq

namespace Document.SameShape

theorem content?_some (h : d.SameShape d') {c : Content} (hx : d.content? x = some c) :
    ∃ c', d'.content? x = some c' ∧ c'.shape = c.shape := by
  have hmap := h.content x
  rwa [hx, Option.map_some, Option.map_eq_some_iff] at hmap

theorem isLive_eq (h : d.SameShape d') : d'.isLive x = d.isLive x := by
  have hmap := congrArg Option.isSome (h.content x)
  rw [Option.isSome_map, Option.isSome_map] at hmap
  simpa [Document.content?, Document.isLive] using hmap

theorem children_eq (h : d.SameShape d') (hx : d.isLive x = true) :
    d'.children x = d.children x := by
  obtain ⟨n, hn⟩ := Document.isLive_iff.mp hx
  obtain ⟨c', hc', hshape⟩ := h.content?_some (Document.content?_of_get? hn)
  rw [Document.children_of_content? hc', Document.children_of_get? hn,
    ← Content.children_shape, hshape, Content.children_shape]

theorem leaves (h : d.SameShape d') {ids leaves : List NodeId} (hl : d.Leaves ids leaves) :
    d'.Leaves ids leaves := by
  induction hl with
  | nil => exact .nil
  | @leaf _ _ _ c hc hleaf _ ih =>
    obtain ⟨c', hc', hshape⟩ := h.content?_some hc
    refine .leaf hc' ?_ ih
    rintro first body last isVoid rfl
    cases c with
    | element => exact hleaf _ _ _ _ rfl
    | _ => simp [Content.shape] at hshape
  | element hc _ _ ihbody ihrest =>
    obtain ⟨c', hc', hshape⟩ := h.content?_some hc
    cases c' with
    | element =>
      cases hshape
      exact .element hc' ihbody ihrest
    | _ => simp [Content.shape] at hshape

end Document.SameShape

theorem Document.Holds.isPlain {ps : List Piece} (hd : d.Holds ps) (hf : d.Forest [d.root])
    (hplain : ∀ p ∈ ps, p.HasPlainName) {c : Content} (hc : d.content? x = some c) {name : Token}
    (hname : c.nameToken? = some name) : IsPlain name.chars := by
  obtain ⟨children, hroot, -⟩ := id hd
  obtain ⟨n, hget, -⟩ := Document.get?_of_content? hc
  have hself := hd.sameRole hf (Document.isLive_of_get? hget)
  cases c with
  | openTag =>
    cases hname
    obtain ⟨t, ht, ⟨_, _, _, _, hx, -, hown, -⟩, -⟩ := hself.openTag_of_content? hroot hc
    rw [hc] at hx
    cases hx
    exact hown ▸ hplain _ ht
  | closeTag =>
    cases hname
    obtain ⟨t, ht, ⟨_, _, _, _, hx, -, hown, -⟩, -⟩ := hself.closeTag_of_content? hroot hc
    rw [hc] at hx
    cases hx
    exact hown ▸ hplain _ ht
  | _ => cases hname

namespace Tracks

variable {e : Document} {now : NodeId → NodeId} {ps ps' : List Piece}

theorem children_eq (h : Tracks d e (d.mendedBy ts) (d.isLive · = true) now) (hno : d.NoFlags ts)
    (hx : d.isLive x = true) : e.children (now x) = (d.children x).map now := by
  obtain ⟨n, hn⟩ := Document.isLive_iff.mp hx
  have hkids : (d.mendAt (d.mendedBy ts) x n).children = n.children := by
    apply Document.children_mendAt
    intro name equals value hmem hcontent
    have hc := Document.content?_of_get? hn
    rw [hcontent] at hc
    rw [Document.mem_mendedBy_iff ts hc (by simp)] at hmem
    exact hno x hmem _ _ _ hc
  rw [h.children hx hn, hkids]
  exact congrArg (List.map now) (Document.children_of_get? hn).symm

theorem sameRole (h : Tracks d e (d.mendedBy ts) (d.isLive · = true) now) (hno : d.NoFlags ts)
    (hshape : d.SameShape d') (hf' : d'.Forest [d'.root]) {children leaves : List NodeId}
    (hroot : d.content? d.root = some (.document children)) (hleaves : d.Leaves children leaves)
    (he : List.Forall₂ e.HoldsPiece (leaves.map now) ps') (hd' : d'.Holds ps')
    (hx : d.isLive x = true) : d'.SameRole e now ps' x := by
  obtain ⟨children', hroot', leaves', hleaves', hps'⟩ := hd'
  obtain ⟨_, hc, hdocument⟩ := hshape.content?_some hroot
  rw [hshape.root, hc] at hroot'
  cases hroot'
  cases hdocument
  rw [← hshape.root] at hc
  obtain rfl := Document.Leaves.eq_of_matches (.refl d') (hshape.leaves hleaves) hleaves'
  refine Document.sameRole_of_leaves hf' hc hleaves' (Document.exists_of_forall₂ hps' he) ?_ ?_
  · intro y hy
    have hlive := hshape.isLive_eq.symm.trans hy
    rw [hshape.children_eq hlive]
    exact h.children_eq hno hlive
  · exact hshape.isLive_eq.trans hx

theorem reread_name (h : Tracks d e (d.mendedBy ts) (d.isLive · = true) now)
    {children' : List NodeId} (hroot' : d'.content? d'.root = some (.document children'))
    {c c' : Content} (hc : d.content? x = some c) (hc' : d'.content? x = some c')
    (hrole : d'.SameRole e now ps' x) (hshape : c'.shape = c.shape) {name name' : Token}
    (hname : c.nameToken? = some name) (hname' : c'.nameToken? = some name') :
    name'.chars = if x ∈ ts then lowercase name.chars else name.chars := by
  obtain ⟨n, hget, -⟩ := Document.get?_of_content? hc
  have hlive := Document.isLive_of_get? hget
  cases c' with
  | openTag =>
    cases c with
    | openTag =>
      cases hname
      cases hname'
      obtain ⟨t, -, ⟨_, _, _, _, hx', -, hthere, -⟩, ⟨_, _, _, _, he, -, hnow, -⟩⟩ :=
        hrole.openTag_of_content? hroot' hc'
      obtain ⟨now', he', hnow', -⟩ := h.content?_openTag hlive hc
      rw [hc'] at hx'
      rw [he] at he'
      cases hx'
      cases he'
      exact hthere.trans (hnow.symm.trans hnow')
    | _ => simp [Content.shape] at hshape
  | closeTag =>
    cases c with
    | closeTag =>
      cases hname
      cases hname'
      obtain ⟨t, -, ⟨_, _, _, _, hx', -, hthere, -⟩, ⟨_, _, _, _, he, -, hnow, -⟩⟩ :=
        hrole.closeTag_of_content? hroot' hc'
      obtain ⟨now', he', hnow'⟩ := h.content?_closeTag hlive hc
      rw [hc'] at hx'
      rw [he] at he'
      cases hx'
      cases he'
      exact hthere.trans (hnow.symm.trans hnow')
    | _ => simp [Content.shape] at hshape
  | _ => cases hname'

theorem reread_quote (h : Tracks d e (d.mendedBy ts) (d.isLive · = true) now)
    {children' : List NodeId} (hroot' : d'.content? d'.root = some (.document children'))
    {openQuote openQuote' closeQuote closeQuote' : Option Token} {ids ids' : List NodeId}
    (hc : d.content? x = some (.attrValue openQuote ids closeQuote))
    (hc' : d'.content? x = some (.attrValue openQuote' ids' closeQuote'))
    (hrole : d'.SameRole e now ps' x) :
    openQuote' = none ↔ openQuote = none ∧ x ∉ ts := by
  obtain ⟨⟨location, _⟩, hget, rfl⟩ := Document.get?_of_content? hc
  have hlive := Document.isLive_of_get? hget
  obtain ⟨v, ⟨_, _, _, hx', hopen', -⟩, ⟨_, _, _, he, hopen, -⟩⟩ :=
    hrole.value_of_content? hroot' hc'
  rw [hc'] at hx'
  cases hx'
  have hmem := Document.mem_mendedBy_iff ts hc (by simp)
  have hsame := hopen'.trans hopen.symm
  by_cases hts : x ∈ ts
  · rw [(h.content?_mended hlive (hmem.mpr hts) hget).1] at he
    cases he
    simp only [Option.map_some, Option.map_eq_some_iff] at hsame
    obtain ⟨mark, rfl, -⟩ := hsame
    simp [hts]
  · rw [(h.content?_fresh hlive (mt hmem.mp hts) hc).1] at he
    cases he
    have hnone := congrArg Option.isNone hsame
    simp only [Option.isNone_map] at hnone
    rw [← Option.isNone_iff_eq_none, hnone, Option.isNone_iff_eq_none]
    simp [hts]

/-- After fixes of names and values, the text is read as the same nodes in their new style. -/
theorem reread (h : Tracks d e (d.mendedBy ts) (d.isLive · = true) now) (hd : d.Holds ps)
    (hf : d.Forest [d.root]) (hplain : ∀ p ∈ ps, p.HasPlainName) (ht : d.Targets ts)
    (hno : d.NoFlags ts) :
    ∃ ps', List.Forall₂ Piece.Restyled ps ps' ∧ e.Holds ps' ∧
      ∀ d', d.Alike d' → d'.Forest [d'.root] → d'.Holds ps' → Reread d d' ts := by
  obtain ⟨children, hroot, leaves, hleaves, hps⟩ := id hd
  obtain ⟨_, ps', hrestyled, -, hsame, hleaves', he⟩ := h.holds hf ht hroot hleaves hps
  rw [← hsame hno] at hrestyled
  refine ⟨ps', hrestyled, he, fun d' halike hf' hd' => ?_⟩
  have hrole {x : NodeId} (hx : d.isLive x = true) :=
    h.sameRole hno halike.sameShape hf' hroot hleaves hleaves' hd' hx
  obtain ⟨children', hroot', -⟩ := hd'
  refine ⟨halike, ?_, ?_⟩
  · intro x n n' hn hn' name name' hname hname'
    refine ⟨hd.isPlain hf hplain (Document.content?_of_get? hn) hname, ?_⟩
    exact h.reread_name hroot' (Document.content?_of_get? hn) (Document.content?_of_get? hn')
      (hrole (Document.isLive_of_get? hn)) (halike.node hn hn').content.shape_eq hname hname'
  · intro x n n' hn hn' openQuote openQuote' ids ids' closeQuote closeQuote' hc hc'
    exact h.reread_quote hroot' (hc ▸ Document.content?_of_get? hn)
      (hc' ▸ Document.content?_of_get? hn')
      (hrole (Document.isLive_of_get? hn))

end Tracks

end TemplateLint
