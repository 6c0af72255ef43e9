import TemplateLint.Proofs.AroundMended
import TemplateLint.Proofs.BareAttribute
import TemplateLint.Proofs.FullPass
import TemplateLint.Proofs.Reread

/-!
# Agreement of checks and fixes

A rule that mends what it reports can be wrong in two ways: a fix may leave its offense, and it may
bring about or hide another one. Main statement: for the rules on tag names, quotes and boolean
attributes a fix changes the text, and the check then reports what it reported before, in that order
and without the one offense (`check_fixed`).
-/

namespace TemplateLint

open Markup Text

variable {d e : Document} {fixed : List NodeId} {present : NodeId → Prop}
  {now : NodeId → NodeId} {t x : NodeId} {n : Node} {o : Offense}

/-! ## One offense among others -/

/-- Each node is reported at most once, and its fix succeeds, changes the text and leaves the other
reports. -/
structure Agrees (check : Document → List Offense) (fix : NodeId → Edit Bool)
    (d : Document) : Prop where
  nodup : ((check d).map Offense.aim).Nodup
  fixed : ∀ o ∈ check d, ∃ t e, o.fix = some ⟨t, .safe⟩ ∧ (fix t).run d = .ok true e ∧
    e.print.toList ≠ d.text d.root ∧ check e = (check d).filter (Offense.spares [t])

theorem Offense.spares_singleton : o.spares [t] = true ↔ o.aim ≠ some t := by
  rw [spares, aim]
  cases o.fix <;> simp

theorem filter_spares_split {before after : List Offense}
    (hnodup : ((before ++ o :: after).map Offense.aim).Nodup) (haim : o.aim = some t) :
    (before ++ o :: after).filter (Offense.spares [t]) = before ++ after := by
  rw [List.map_append, List.map_cons, List.nodup_middle, haim, List.nodup_cons,
    ← List.map_append] at hnodup
  have hothers : ∀ o' ∈ before ++ after, o'.spares [t] = true := by
    intro o' ho'
    rw [Offense.spares_singleton]
    intro hsame
    exact hnodup.1 (hsame ▸ List.mem_map_of_mem ho')
  have hself : ¬ o.spares [t] = true := by simp [Offense.spares_singleton, haim]
  rw [List.filter_append, List.filter_cons_of_neg hself, ← List.filter_append,
    List.filter_eq_self.mpr hothers]

theorem filter_spares_of_offers {rule : Descriptor} {os : List Offense}
    (h : ∀ o ∈ os, o.Offers rule x) :
    os.filter (Offense.spares [t]) = if x = t then [] else os := by
  split
  · rename_i he
    rw [List.filter_eq_nil_iff]
    intro o ho
    simp [(h o ho).spares_iff, he]
  · rename_i hne
    rw [List.filter_eq_self]
    intro o ho
    simpa [(h o ho).spares_iff] using hne

/-! ## Tag names -/

namespace Rules.TagName

theorem lowered?_lower (name : String) : lowered? (Case.lower name) = none := by
  rw [lowered?, lower_lower]
  exact if_pos rfl

theorem checkTag_mended (d : Document) (x : NodeId) (n : Node) :
    checkTag x (d.mended n).content = [] := by
  obtain ⟨location, content⟩ := n
  cases content <;> simp [Document.mended, checkTag, lowered?_lower]

theorem isOpenTag_now (n : Node) :
    ((d.mendAt [t] x n).mapChildren now).content.isOpenTag = n.content.isOpenTag := by
  obtain ⟨location, content⟩ := n
  rcases d.mendAt_or [t] x ⟨location, content⟩ with hmend | hmend <;> rw [hmend] <;>
    cases content <;> rfl

theorem isCloseTag_now (n : Node) :
    ((d.mendAt [t] x n).mapChildren now).content.isCloseTag = n.content.isCloseTag := by
  obtain ⟨location, content⟩ := n
  rcases d.mendAt_or [t] x ⟨location, content⟩ with hmend | hmend <;> rw [hmend] <;>
    cases content <;> rfl

theorem checkTag_mapChildren (x : NodeId) (c : Content) :
    checkTag x (c.mapChildren now) = checkTag x c := by
  cases c <;> rfl

section Tracked

variable (h : Tracks d e [t] present now)
include h

theorem checkTag_now (x : NodeId) (n : Node) :
    checkTag (now x) ((d.mendAt [t] x n).mapChildren now).content =
    (checkTag x n.content).filter (Offense.spares [t]) := by
  rw [Node.mapChildren, checkTag_mapChildren, filter_spares_of_offers fun o ho =>
    (offers_of_mem_checkTag ho).1]
  split
  · rename_i he
    rw [Document.mendAt, if_pos (by simp [he]), checkTag_mended]
  · rename_i hne
    rw [Document.mendAt, if_neg (by simpa using hne), h.kept x (by simpa using hne)]

theorem checkOwnTag_now {isOwn : Content → Bool}
    (hown : ∀ n, isOwn ((d.mendAt [t] x n).mapChildren now).content = isOwn n.content)
    (hx : present x) :
    checkOwnTag e isOwn (now x) = (checkOwnTag d isOwn x).filter (Offense.spares [t]) := by
  obtain ⟨n, hn, hget, -⟩ := h.node x hx
  simp only [checkOwnTag, hn, hget, hown]
  split
  · exact checkTag_now h x n
  · rfl

end Tracked

theorem tagName?_now (h : Tracks d e fixed present now) (hx : present x) :
    e.tagName? (now x) = d.tagName? x ∨ e.tagName? (now x) = (d.tagName? x).map Case.lower := by
  obtain ⟨⟨location, content⟩, hn, hget, hpresent⟩ := h.node x hx
  cases content with
  | element first body last isVoid =>
    rw [Document.mendAt_of_mended rfl] at hget hpresent
    obtain ⟨⟨place, tag⟩, hm, hget', -⟩ :=
      h.node first (hpresent first (by simp [Node.children, Content.children]))
    rcases d.mendAt_or fixed first ⟨place, tag⟩ with hmend | hmend <;> rw [hmend] at hget'
    · right
      cases tag <;>
        simp [Document.tagName?, hn, hm, hget, hget', Node.mapChildren,
          Content.mapChildren, Document.mended]
    · left
      cases tag <;>
        simp [Document.tagName?, hn, hm, hget, hget', Node.mapChildren, Content.mapChildren]
  | _ =>
    left
    rcases d.mendAt_or fixed x ⟨location, _⟩ with hmend | hmend <;> rw [hmend] at hget <;>
      simp [Document.tagName?, hn, hget, Node.mapChildren, Content.mapChildren, Document.mended]

theorem letters_svg : ∀ c ∈ asciiLower "svg".toList, isAsciiLetter c = true ∧ c ≠ 'k' := by
  have hcheck : ((asciiLower "svg".toList).all fun c => isAsciiLetter c && c != 'k') =
      true := by decide
  simpa only [List.all_eq_true, Bool.and_eq_true, bne_iff_ne] using hcheck

theorem isSvg_now (h : Tracks d e fixed present now) (hx : present x) :
    isSvg e (now x) = isSvg d x := by
  rcases tagName?_now h hx with hname | hname
  · rw [isSvg, isSvg, hname]
  · rw [isSvg, isSvg, hname, Option.any_map]
    exact congrArg (Option.any · _) (funext (sameLetters_lower letters_svg))

theorem checkVisit_moved (h : Tracks d e [t] present now) {v : Visit} (hv : v.Shows d present) :
    checkVisit e (v.moved d [t] now) = (checkVisit d v).filter (Offense.spares [t]) := by
  have htag := checkTag_now h v.id v.node
  have hpresent := (h.get? hv.stays hv.here).2
  have hsvg := isSvg_now h hv.stays
  obtain ⟨id, ⟨location, content⟩, ancestors⟩ := v
  cases content with
  | element first body last isVoid =>
    -- An `svg` element speaks for its two tags, which the walk does not come to.
    rw [Document.mendAt_of_mended rfl] at hpresent
    simp only [Node.children, Content.children, List.mem_append, List.mem_cons,
      Option.mem_toList] at hpresent
    have hfirst := checkOwnTag_now h isOpenTag_now (hpresent first (Or.inl (Or.inl rfl)))
    have hlast : (last.map now).toList.flatMap (checkOwnTag e Content.isCloseTag) =
        (last.toList.flatMap (checkOwnTag d Content.isCloseTag)).filter (Offense.spares [t]) := by
      cases last with
      | none => rfl
      | some x => simpa using checkOwnTag_now h isCloseTag_now (hpresent x (Or.inr rfl))
    simp only [Visit.moved,
      Document.mendAt_of_mended (d := d) (n := ⟨location, .element first body last isVoid⟩) rfl,
      checkVisit, Node.mapChildren, Content.mapChildren, hsvg]
    split
    · rw [List.filter_append, hfirst, hlast]
    · rfl
  | _ =>
    simp only [Visit.moved, Document.mendAt] at htag ⊢
    split at htag <;> rename_i hmem <;> simp only [hmem, if_true, if_false] <;> exact htag

theorem check_mended (h : Tracks d e [t] present now) (hg : d.Grounded) (hn : d.get? t = some n)
    (hattr : ∀ name equals value, n.content ≠ .attr name equals value) :
    check e = (check d).filter (Offense.spares [t]) := by
  refine h.flatMap_visits (fun v hv => isSvg_now h hv.stays) ?_ hg fun v hv => checkVisit_moved h hv
  intro v hv _
  apply Document.children_mendAt
  intro name equals value hmem
  obtain rfl : n = v.node := by
    have hhere := hv.here
    rw [List.mem_singleton.mp hmem, hn] at hhere
    exact Option.some.inj hhere
  exact hattr name equals value

theorem render_mended (d : Document) (f : NodeId → List Char)
    (hlower : (lowerTag? n.content).isSome = true) :
    (d.mended n).content.render f ≠ n.content.render f := by
  have hname {name : String} (h : (lowered? name).isSome = true) :
      (Case.lower name).toList ≠ name.toList := by
    obtain ⟨lower, hsome⟩ := Option.isSome_iff_exists.mp h
    obtain ⟨hne, rfl⟩ := lowered?_eq_some.mp hsome
    exact fun he => hne (String.toList_inj.mp he)
  obtain ⟨location, content⟩ := n
  cases content with
  | openTag opening name children closing =>
    simpa [Document.mended, Content.render, Token.chars]
      using hname (by simpa [lowerTag?] using hlower)
  | closeTag opening name trailing closing =>
    simpa [Document.mended, Content.render, Token.chars]
      using hname (by simpa [lowerTag?] using hlower)
  | _ => simp [lowerTag?] at hlower

theorem agrees {ps : List Piece} (hd : d.Holds ps) (hf : d.Forest [d.root]) :
    Agrees check fix d := by
  refine ⟨nodup_aims_of_reach hf (aims_checkVisit d), fun o ho => ?_⟩
  obtain ⟨t, n, hn, hoffers, hlower⟩ := offers_of_mem_check ho
  have hlive := Document.isLive_of_get? hn
  have hkind : (∀ ids, n.content ≠ .document ids) ∧
      (∀ name equals value, n.content ≠ .attr name equals value) ∧
      ∀ openQuote children closeQuote, n.content ≠ .attrValue openQuote children closeQuote := by
    cases hcontent : n.content <;> simp_all [lowerTag?]
  obtain ⟨c, hc⟩ := Option.isSome_iff_exists.mp hlower
  obtain ⟨e, now, hrun, htracks⟩ := run_fix (.refl hf) hlive List.not_mem_nil hn
    (hd.ne_root (Document.content?_of_get? hn) hkind.1) hc
  rw [Document.amends_of_not_value hn hkind.2.2, List.append_nil] at htracks
  refine ⟨t, e, hoffers.fix, hrun, ?_, check_mended htracks hf.grounded hn hkind.2.1⟩
  refine htracks.print_ne hf (t := t) (by simpa using .refl d t) hlive fun _ => ?_
  rw [htracks.text_mended hf.grounded hlive hn, hf.grounded.text_eq_render hn]
  exact render_mended d d.text hlower

end Rules.TagName

/-! ## Quotes -/

theorem Document.mem_mendedBy_singleton (h : x ∈ d.mendedBy [t]) : x = t ∨ x ∈ d.children t := by
  rw [mendedBy, List.flatMap_singleton] at h
  by_cases he : x = t
  · exact Or.inl he
  · exact Or.inr (hasDoubleQuote_of_amends h he).1

theorem Markup.Value.length_quoted {v : Value} (hbare : v.quote = none) :
    v.text.length < v.quoted.text.length := by
  have hescape (s : List Char) : s.length ≤ (Rules.QuotedValue.escapeQuotes s).length := by
    induction s with
    | nil => simp
    | cons c rest ih =>
      rw [escapeQuotes_cons]
      split <;> simp <;> omega
  have hparts (parts : List ValuePart) :
      (parts.flatMap ValuePart.text).length ≤
        ((parts.map ValuePart.escaped).flatMap ValuePart.text).length := by
    induction parts with
    | nil => simp
    | cons part rest ih =>
      simp only [List.map_cons, List.flatMap_cons, List.length_append]
      refine Nat.add_le_add ?_ ih
      cases part with
      | literal text => exact hescape text
      | erb erb => exact Nat.le_refl _
  have hmarks (parts : List ValuePart) (quote : Quote) :
      (Value.text ⟨some quote, parts⟩).length = (parts.flatMap ValuePart.text).length + 2 := by
    simp [text]
  have hplain : v.text.length = (v.parts.flatMap ValuePart.text).length := by simp [text, hbare]
  have hescaped := hparts v.parts
  unfold quoted
  simp only
  split
  · split <;> rw [hmarks, hplain] <;> omega
  · rw [hmarks, hplain]
    omega

namespace Rules.QuotedValue

theorem isAttrValue_moved (v : Visit) :
    isAttrValue (v.moved d fixed now).node.content = isAttrValue v.node.content := by
  obtain ⟨id, ⟨location, content⟩, ancestors⟩ := v
  rcases d.mendAt_or fixed id ⟨location, content⟩ with hmend | hmend <;> rw [Visit.moved, hmend] <;>
    cases content <;> rfl

theorem offers_of_mem_checkVisit {v : Visit} (h : o ∈ checkVisit d v) :
    o.Offers descriptor v.id := by
  unfold checkVisit at h
  split at h
  · rw [List.mem_singleton.mp h]
    exact ⟨rfl, rfl⟩
  · cases h

theorem attrName_now (h : Tracks d e fixed present now) {parent : Option NodeId}
    (hp : ∀ p ∈ parent, present p) :
    attrName e (parent.map now) = attrName d parent := by
  cases parent with
  | none => rfl
  | some p =>
    obtain ⟨⟨location, content⟩, hn, hget, -⟩ := h.node p (hp p rfl)
    rcases d.mendAt_or fixed p ⟨location, content⟩ with hmend | hmend <;>
      rw [hmend] at hget <;> cases content <;>
      simp [attrName, hn, hget, Node.mapChildren, Content.mapChildren, Document.mended]

theorem partSource_now (h : Tracks d e fixed present now) (hx : present x)
    (hfresh : ∀ content, d.content? x = some (.literal content) → x ∉ fixed) :
    partSource e (now x) = partSource d x := by
  obtain ⟨⟨location, content⟩, hn, hget, -⟩ := h.node x hx
  cases content with
  | literal content =>
    rw [Document.mendAt, if_neg (hfresh content (Document.content?_of_get? hn))] at hget
    simp [partSource, hn, hget, Node.mapChildren, Content.mapChildren]
  | _ =>
    rcases d.mendAt_or fixed x ⟨location, _⟩ with hmend | hmend <;> rw [hmend] at hget <;>
      simp [partSource, hn, hget, Node.mapChildren, Content.mapChildren, Document.mended]

section Value

variable {openQuote closeQuote : Option Token} {children tops : List NodeId}
  (ht : d.content? t = some (.attrValue openQuote children closeQuote))
include ht

theorem child_of_mem_mendedBy {content : Token} (hx : d.content? x = some (.literal content))
    (hmem : x ∈ d.mendedBy [t]) : x ∈ d.children t := by
  refine (Document.mem_mendedBy_singleton hmem).resolve_left ?_
  rintro rfl
  simp [hx] at ht

theorem checkVisit_moved (h : Tracks d e (d.mendedBy [t]) present now)
    (hf : d.Forest tops) {v : Visit} (hv : v.Shows d present) :
    checkVisit e (v.moved d (d.mendedBy [t]) now) =
      (checkVisit d v).filter (Offense.spares [t]) := by
  rw [filter_spares_of_offers fun o ho => offers_of_mem_checkVisit ho]
  obtain ⟨hhere, hstays, habove⟩ := hv
  obtain ⟨id, ⟨location, content⟩, ancestors⟩ := v
  have hc := Document.content?_of_get? hhere
  cases content with
  | attrValue openQuote children closeQuote =>
    have hmem := Document.mem_mendedBy_iff [t] hc (by simp)
    rw [List.mem_singleton] at hmem
    split
    · rename_i he
      simp [Visit.moved, Document.mendAt, hmem.mpr he, Document.mended,
        Node.mapChildren, Content.mapChildren, checkVisit]
    · rename_i hne
      have hfresh : id ∉ d.mendedBy [t] := fun hin => hne (hmem.mp hin)
      have hpresent := (h.get? hstays hhere).2
      rw [Document.mendAt, if_neg hfresh] at hpresent
      -- Literals that were escaped belong to the mended value, so the message of this one quotes
      -- none of them.
      have hparts : (children.map now).map (partSource e) = children.map (partSource d) := by
        rw [List.map_map]
        apply List.map_congr_left
        intro c hchild
        refine partSource_now h (hpresent c hchild) fun content hliteral hin => hne ?_
        refine hf.parent_unique ?_ (child_of_mem_mendedBy ht hliteral hin)
        rw [Document.children_of_get? hhere]
        exact hchild
      have hname : attrName e (ancestors.map now).head? = attrName d ancestors.head? := by
        rw [List.head?_map]
        exact attrName_now h fun p hp => habove p (List.mem_of_mem_head? hp)
      simp only [Visit.moved, Document.mendAt, if_neg hfresh, Node.mapChildren,
        Content.mapChildren, h.kept id hfresh]
      cases openQuote with
      | some mark => rfl
      | none =>
        cases children with
        | nil => rfl
        | cons first rest =>
          simp only [List.map_cons] at hparts
          simp only [checkVisit, List.map_cons, hparts, Visit.parent?, hname]
  | _ =>
    simp only [checkVisit, ite_self]
    rcases d.mendAt_or (d.mendedBy [t]) id ⟨location, _⟩ with hmend | hmend <;>
      rw [Visit.moved, hmend] <;> rfl

theorem check_mended (h : Tracks d e (d.mendedBy [t]) present now) (hf : d.Forest tops) :
    check e = (check d).filter (Offense.spares [t]) := by
  refine h.flatMap_visits (fun v _ => isAttrValue_moved v) ?_ hf.grounded fun v hv =>
    checkVisit_moved ht h hf hv
  intro v hv _
  apply Document.children_mendAt
  intro name equals value hmem hattr
  have hc := Document.content?_of_get? hv.here
  rw [hattr] at hc
  rw [Document.mem_mendedBy_iff [t] hc (by simp), List.mem_singleton] at hmem
  rw [hmem, ht] at hc
  cases hc

end Value

theorem agrees {ps : List Piece} (hd : d.Holds ps) (hf : d.Forest [d.root]) :
    Agrees check fix d := by
  refine ⟨nodup_aims_of_reach hf fun v => aims_checkVisit d v _, fun o ho => ?_⟩
  obtain ⟨t, location, children, closeQuote, hn, hoffers⟩ := offers_of_mem_check ho
  have hlive := Document.isLive_of_get? hn
  have hc := Document.content?_of_get? hn
  obtain ⟨e, now, hrun, htracks⟩ :=
    run_fix (.refl hf) hlive List.not_mem_nil (hd.ne_root hc (by simp)) hn fun _ _ =>
      List.not_mem_nil
  have htracks : Tracks d e (d.mendedBy [t]) (d.isLive · = true) now := htracks
  have htargets : d.Targets [t] := List.forall_mem_singleton.mpr ⟨_, hc, trivial⟩
  refine ⟨t, e, hoffers.fix, hrun, ?_, check_mended hc htracks hf⟩
  refine htracks.print_ne hf (t := t) ?_ hlive fun _ => ?_
  · intro x hx
    rcases Document.mem_mendedBy_singleton hx with rfl | hchild
    · exact .refl d x
    · exact .head hchild (.refl d x)
  · obtain ⟨v, hv⟩ := hd.value_of_content? hf hc
    have hv' := htracks.holdsValue_mended hf htargets hlive (List.mem_singleton.mpr rfl) hv
    have hlonger := Value.length_quoted (htargets.bare_of_mem (List.mem_singleton.mpr rfl) hv)
    rw [hv'.text_eq htracks.forest.grounded, hv.text_eq hf.grounded]
    intro he
    rw [he] at hlonger
    exact Nat.lt_irrefl _ hlonger

end Rules.QuotedValue

/-! ## Boolean attributes -/

theorem Document.Holds.value_of_attr {ps : List Piece} (hd : d.Holds ps)
    (hf : d.Forest [d.root]) {name : Token} {equals : Option Token} {value : NodeId}
    (hx : d.content? x = some (.attr name equals (some value))) :
    (∃ mark, equals = some mark ∧ mark.chars = ['=']) ∧ ∃ v, d.HoldsValue value v := by
  obtain ⟨n, hget, -⟩ := Document.get?_of_content? hx
  have hrole := hd.sameRole hf (Document.isLive_of_get? hget)
  obtain ⟨_, hroot, -⟩ := hd
  rcases hrole.construct hroot hx (by simp) (by simp)
    with ⟨p, -, hp, -⟩ | ⟨part, hp, -⟩ | ⟨v, hv, -⟩ | ⟨part, hp, -⟩
  · cases p <;> simp [HoldsPiece, HoldsErb, HoldsOpenTag, HoldsCloseTag, hx] at hp
  · cases part with
    | attr a =>
      obtain ⟨name', equals', value', hx', -, hequals, hvalue⟩ := hp
      obtain ⟨aname, avalue⟩ := a
      rw [hx] at hx'
      cases hx'
      cases hvalue with
      | some hv =>
        obtain ⟨mark, rfl, hmark⟩ := Option.map_eq_some_iff.mp hequals
        exact ⟨⟨mark, rfl, hmark⟩, _, hv⟩
    | _ => simp [HoldsTagPart, HoldsErb, hx] at hp
  · simp [HoldsValue, hx] at hv
  · cases part <;> simp [HoldsPart, HoldsErb, hx] at hp

namespace Rules.BooleanAttribute

theorem isAttr_moved (v : Visit) :
    isAttr (v.moved d fixed now).node.content = isAttr v.node.content := by
  obtain ⟨id, ⟨location, content⟩, ancestors⟩ := v
  rcases d.mendAt_or fixed id ⟨location, content⟩ with hmend | hmend <;> rw [Visit.moved, hmend] <;>
    cases content <;> rfl

theorem offers_of_mem_checkVisit {v : Visit} (h : o ∈ checkVisit d v) :
    o.Offers descriptor v.id := by
  unfold checkVisit at h
  split at h
  · split at h
    · rw [List.mem_singleton.mp h]
      exact ⟨rfl, rfl⟩
    · cases h
  · cases h

theorem aims_checkVisit (d : Document) (v : Visit) (skip : Visit → Bool) :
    ((checkVisit d v).map Offense.aim).Sublist ((v.reach skip).map some) := by
  refine List.Sublist.trans ?_ ((v.self_sublist_reach skip).map some)
  unfold checkVisit
  split
  · split
    · exact List.Sublist.refl _
    · exact List.nil_sublist _
  · exact List.nil_sublist _

theorem isErb_now (h : Tracks d e fixed present now) (hx : present x) :
    isErb e (now x) = isErb d x := by
  obtain ⟨⟨location, content⟩, hn, hget, -⟩ := h.node x hx
  rcases d.mendAt_or fixed x ⟨location, content⟩ with hmend | hmend <;>
    rw [hmend] at hget <;> cases content <;>
    simp [isErb, hn, hget, Node.mapChildren, Content.mapChildren, Document.mended]

theorem any_isErb_now (h : Tracks d e fixed present now) (hx : present x) (hfresh : x ∉ fixed) :
    (e.children (now x)).any (isErb e) = (d.children x).any (isErb d) := by
  obtain ⟨n, hn, -, hpresent⟩ := h.node x hx
  rw [h.children hx hn, Document.children_of_get? hn, List.any_map]
  rw [Document.mendAt, if_neg hfresh] at hpresent ⊢
  rw [Bool.eq_iff_iff, List.any_eq_true, List.any_eq_true]
  refine exists_congr fun c => and_congr_right fun hc => ?_
  rw [Function.comp_apply, isErb_now h (hpresent c hc)]

section Attribute

variable {name : Token} {equals : Option Token} {value : NodeId} {ps : List Piece}
  (ht : d.content? t = some (.attr name equals (some value)))
include ht

theorem checkVisit_moved (h : Tracks d e [t] present now) (hd : d.Holds ps)
    (hf : d.Forest [d.root]) {v : Visit} (hv : v.Shows d present) :
    checkVisit e (v.moved d [t] now) = (checkVisit d v).filter (Offense.spares [t]) := by
  rw [filter_spares_of_offers fun o ho => offers_of_mem_checkVisit ho]
  obtain ⟨hhere, hstays, -⟩ := hv
  obtain ⟨id, ⟨location, content⟩, ancestors⟩ := v
  cases content with
  | attr name equals value =>
    split
    · rename_i he
      obtain rfl : id = t := he
      simp [Visit.moved, Document.mendAt, Document.mended, Node.mapChildren,
        Content.mapChildren, checkVisit]
    · rename_i hne
      have hfresh : id ∉ [t] := by simpa using hne
      simp only [Visit.moved, Document.mendAt, if_neg hfresh, Node.mapChildren,
        Content.mapChildren, h.kept id hfresh]
      cases value with
      | none => rfl
      | some value =>
        have hpresent := (h.get? hstays hhere).2
        rw [Document.mendAt, if_neg hfresh] at hpresent
        have hvalue : value ∉ [t] := by
          obtain ⟨-, v, openQuote, children, closeQuote, hc, -⟩ :=
            hd.value_of_attr hf (Document.content?_of_get? hhere)
          rw [List.mem_singleton]
          rintro rfl
          simp [hc] at ht
        have herb :=
          any_isErb_now h (hpresent value (by simp [Node.children, Content.children])) hvalue
        simp only [checkVisit, Option.map_some, herb]
  | _ =>
    simp only [checkVisit, ite_self]
    rcases d.mendAt_or [t] id ⟨location, _⟩ with hmend | hmend <;> rw [Visit.moved, hmend] <;> rfl

theorem check_mended (h : Tracks d e [t] present now) (hd : d.Holds ps) (hf : d.Forest [d.root]) :
    check e = (check d).filter (Offense.spares [t]) := by
  refine h.flatMap_visits (fun v _ => isAttr_moved v) ?_ hf.grounded fun v hv =>
    checkVisit_moved ht h hd hf hv
  -- The walk does not go below attributes, so it does not miss the value that is gone.
  intro v _ hskip
  apply Document.children_mendAt
  intro name equals value _ hattr
  simp [hattr, isAttr] at hskip

end Attribute

theorem agrees {ps : List Piece} (hd : d.Holds ps) (hf : d.Forest [d.root]) :
    Agrees check fix d := by
  refine ⟨nodup_aims_of_reach hf fun v => aims_checkVisit d v _, fun o ho => ?_⟩
  obtain ⟨t, name, equals, value, hn, -, -, hfix⟩ := offers_of_mem_check ho
  have hlive := Document.isLive_of_get? hn
  have hc := Document.content?_of_get? hn
  obtain ⟨e, present, now, hrun, htracks⟩ :=
    run_fix (.refl hf) hlive List.not_mem_nil (hd.ne_root hc (by simp)) hn (by simp)
  rw [Document.amends_of_not_value hn (by simp), List.append_nil] at htracks
  refine ⟨t, e, hfix, hrun, ?_, check_mended hc htracks hd hf⟩
  refine htracks.print_ne hf (t := t) (by simpa using .refl d t) hlive fun ht => ?_
  obtain ⟨⟨mark, rfl, hmark⟩, -⟩ := hd.value_of_attr hf hc
  rw [htracks.text_mended hf.grounded ht hn, hf.grounded.text_eq_render hn]
  simp [Document.mended, Content.render, hmark]

end Rules.BooleanAttribute

/-! ## The three rules -/

/-- The fix of a reported node succeeds and changes the text; then the check reports the others and
no more. -/
theorem check_fixed {source : String} (h : Document.parse source true = .ok d) {r : DocumentRule}
    (hr : .document r ∈ [Rules.tagName, Rules.quotedValue, Rules.booleanAttribute]) {c : Context}
    {notes notes' : List Note} {before after : List Offense}
    (hcheck : r.check d c notes = .ok (before ++ o :: after, notes')) :
    ∃ target e, o.fix = some target ∧
      (r.fix target.node notes').run d = .ok true e ∧ e.print ≠ source ∧
      r.check e c notes = .ok (before ++ after, notes') := by
  obtain ⟨ps, hps, -⟩ := exists_pieces_of_parse h
  have hd : d.Holds ps := hps ▸ holds_ofPieces ps
  have hf := forest_of_parse h
  obtain ⟨descriptor, check, fix, rfl, hagrees⟩ :
      ∃ descriptor check fix, r = .plain descriptor check fix ∧ Agrees check fix d := by
    simp only [List.mem_cons, List.not_mem_nil, or_false, Rules.tagName, Rules.quotedValue,
      Rules.booleanAttribute, Rule.document.injEq] at hr
    rcases hr with rfl | rfl | rfl
    · exact ⟨_, _, _, rfl, Rules.TagName.agrees hd hf⟩
    · exact ⟨_, _, _, rfl, Rules.QuotedValue.agrees hd hf⟩
    · exact ⟨_, _, _, rfl, Rules.BooleanAttribute.agrees hd hf⟩
  obtain ⟨hsplit, rfl⟩ : check d = before ++ o :: after ∧ notes = notes' := by
    simpa [DocumentRule.plain] using hcheck
  obtain ⟨t, e, hfix, hrun, htext, hrest⟩ := hagrees.fixed o (by simp [hsplit])
  have hnodup := hagrees.nodup
  rw [hsplit] at hnodup hrest
  rw [filter_spares_split hnodup (by rw [Offense.aim, hfix, Option.map_some])] at hrest
  refine ⟨⟨t, .safe⟩, e, hfix, hrun, ?_, ?_⟩
  · rw [(exact_of_parse h).2.2] at htext
    exact fun he => htext (congrArg String.toList he)
  · simp [DocumentRule.plain, hrest]

/-- Of an `svg` element the close tag is mended. The names inside are left alone, before and
after. -/
theorem check_fixed_svg : ∃ d e first o last,
    Document.parse "<Svg><G></G></SVG><AΣ>" true = .ok d ∧
      Rules.TagName.check d = [first, o, last] ∧
      o.fix = some ⟨4, .safe⟩ ∧ (Rules.TagName.fix 4).run d = .ok true e ∧
      e.print = "<Svg><G></G></svg><AΣ>" ∧
      Rules.TagName.check e = [first, last] := by
  have hok : (Document.parse "<Svg><G></G></SVG><AΣ>" true).toOption.any (fun d =>
      decide ((Rules.TagName.check d).length = 3 ∧
        (Rules.TagName.check d)[1]?.bind (·.fix) = some ⟨4, .safe⟩) &&
      (Edit.changed? (Rules.TagName.fix 4) d).any fun e =>
        decide (e.print = "<Svg><G></G></svg><AΣ>")) = true := by
    decide +kernel
  obtain ⟨d, hd, hfacts⟩ := exists_ok_of_any hok
  rw [Bool.and_eq_true, decide_eq_true_eq, Option.any_eq_true] at hfacts
  obtain ⟨⟨hlength, htarget⟩, e', hchanged, hprint⟩ := hfacts
  obtain ⟨first, o, last, hcheck⟩ := List.length_eq_three.mp hlength
  have hfound : (DocumentRule.plain Rules.TagName.descriptor Rules.TagName.check
      Rules.TagName.fix).check d {} [] =
      .ok ([first] ++ o :: [last], []) := by simp [DocumentRule.plain, hcheck]
  obtain ⟨target, e, hfix, hrun, -, hrest⟩ := check_fixed hd List.mem_cons_self hfound
  rw [hcheck] at htarget
  obtain rfl := Option.some.inj (hfix.symm.trans htarget)
  obtain rfl : e = e' := Option.some.inj ((Edit.changed?_eq_some_iff.mpr hrun).symm.trans hchanged)
  refine ⟨d, e, first, o, last, hd, hcheck, hfix, hrun, of_decide_eq_true hprint, ?_⟩
  simpa [DocumentRule.plain] using hrest

end TemplateLint
