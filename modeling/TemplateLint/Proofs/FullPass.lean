import TemplateLint.Proofs.Unbroken
import Mathlib.Data.List.Flatten

/-!
# Passes in which every fix succeeds

The rules on tag names and on quotes report each node at most once. So in a pass over what they
report, no fix meets a node that an earlier one has replaced, whatever happened to the nodes above
it. Main statements: `Linter.nodup_aims` and `FixPass.mended_run`.
-/

namespace TemplateLint

open Markup

/-! ## No node is reported twice -/

/-- The nodes that a visit stands for: where a walk ends, the children too. -/
def Visit.reach (skip : Visit → Bool) (v : Visit) : List NodeId :=
  if skip v then v.id :: v.node.children else [v.id]

theorem Visit.self_sublist_reach (skip : Visit → Bool) (v : Visit) :
    [v.id].Sublist (v.reach skip) := by
  unfold reach
  split
  · exact List.cons_sublist_cons.mpr (List.nil_sublist _)
  · exact List.Sublist.refl _

namespace Document.Forest

variable {d : Document} {tops : List NodeId}

theorem nodup_reach (hf : d.Forest tops) (skip : Visit → Bool) (depth : Nat)
    (ancestors : List NodeId) (id : NodeId) :
    ((d.visitsTo skip depth ancestors id).flatMap (Visit.reach skip)).Nodup ∧
      ∀ x ∈ (d.visitsTo skip depth ancestors id).flatMap (Visit.reach skip), d.Below id x := by
  induction depth generalizing ancestors id with
  | zero => simp [visitsTo]
  | succ depth ih =>
    cases hget : d.get? id with
    | none => simp [visitsTo_of_none hget]
    | some n =>
      have hkids : d.children id = n.children := Document.children_of_get? hget
      have hnodup := hf.children_nodup id
      have hchild {c : NodeId} (hc : c ∈ n.children) : c ∈ d.children id := hkids ▸ hc
      rw [visitsTo_succ hget, List.flatMap_cons]
      cases hskip : skip ⟨id, n, ancestors⟩ with
      | true =>
        simp only [Visit.reach, hskip, if_true, List.flatMap_nil, List.append_nil]
        refine ⟨List.nodup_cons.mpr ⟨fun hmem => ?_, hkids ▸ hnodup⟩, ?_⟩
        · exact hf.grounded.not_below_of_child (hchild hmem) (.refl d id)
        · rw [List.forall_mem_cons]
          exact ⟨.refl d id, fun c hc => .head (hchild hc) (.refl d c)⟩
      | false =>
        simp only [Bool.false_eq_true, if_false, List.flatMap_assoc]
        rw [show Visit.reach skip ⟨id, n, ancestors⟩ = [id] by simp [Visit.reach, hskip],
          List.singleton_append]
        have hbelow : ∀ x ∈ n.children.flatMap fun c =>
            (d.visitsTo skip depth (id :: ancestors) c).flatMap (Visit.reach skip),
              ∃ c ∈ d.children id, d.Below c x := by
          intro x hx
          obtain ⟨c, hc, hx⟩ := List.mem_flatMap.mp hx
          exact ⟨c, hchild hc, (ih _ c).2 x hx⟩
        refine ⟨List.nodup_cons.mpr
          ⟨fun hmem => ?_, List.nodup_flatMap.mpr ⟨fun c _ => (ih _ c).1, ?_⟩⟩, ?_⟩
        · obtain ⟨c, hc, hb⟩ := hbelow id hmem
          exact hf.grounded.not_below_of_child hc hb
        · -- What is below one child is not below another.
          refine (hkids ▸ hnodup).pairwise_of_forall_ne fun a ha b hb hne => ?_
          intro x hxa hxb
          exact hne
            (hf.eq_of_siblings_above (hchild ha) (hchild hb) ((ih _ a).2 x hxa) ((ih _ b).2 x hxb))
        · rw [List.forall_mem_cons]
          refine ⟨.refl d id, fun x hx => ?_⟩
          obtain ⟨c, hc, hb⟩ := hbelow x hx
          exact .head hc hb

end Document.Forest

def Offense.aim (o : Offense) : Option NodeId := o.fix.map FixTarget.node

theorem Offense.Offers.aim_eq {o : Offense} {rule : Descriptor} {x : NodeId} (h : o.Offers rule x) :
    o.aim = some x := by
  rw [aim, h.fix, Option.map_some]

theorem nodup_aims_of_reach {d : Document} {tops : List NodeId}
    (hf : d.Forest tops) {skip : Visit → Bool} {check : Visit → List Offense}
    (h : ∀ v, ((check v).map Offense.aim).Sublist ((v.reach skip).map some)) :
    (((d.visits skip).flatMap check).map Offense.aim).Nodup := by
  have hnodup := (hf.nodup_reach skip d.slots.size [] d.root).1
  rw [← Document.visits_eq] at hnodup
  refine (hnodup.map (Option.some_injective _)).sublist ?_
  rw [List.map_flatMap, List.map_flatMap]
  exact List.Sublist.flatMap_right _ fun v _ => h v

namespace Rules.TagName

theorem aims_checkTag (x : NodeId) (c : Content) :
    ((checkTag x c).map Offense.aim).Sublist [some x] := by
  have hname (make : String → Offense) (hmake : ∀ lower, (make lower).aim = some x)
      (lower : Option String) :
      ((lower.toList.map make).map Offense.aim).Sublist [some x] := by
    cases lower <;> simp [hmake]
  cases c with
  | openTag => exact hname _ (fun _ => rfl) _
  | closeTag => exact hname _ (fun _ => rfl) _
  | _ => exact List.nil_sublist _

theorem aims_checkOwnTag (d : Document) (isOwn : Content → Bool) (x : NodeId) :
    ((checkOwnTag d isOwn x).map Offense.aim).Sublist [some x] := by
  unfold checkOwnTag
  split
  · split
    · exact aims_checkTag _ _
    · exact List.nil_sublist _
  · exact List.nil_sublist _

theorem aims_checkVisit (d : Document) (v : Visit) :
    ((checkVisit d v).map Offense.aim).Sublist ((v.reach fun v => isSvg d v.id).map some) := by
  unfold checkVisit
  split
  · rename_i first body last isVoid hcontent
    split
    · rename_i hsvg
      -- An `svg` element reports its two tags, which no walk comes to.
      have hreach : v.reach (fun v => isSvg d v.id) = v.id :: first :: (body ++ last.toList) := by
        rw [Visit.reach, if_pos hsvg, Node.children, hcontent]
        rfl
      have hlast :
          ((last.toList.flatMap (checkOwnTag d Content.isCloseTag)).map Offense.aim).Sublist
          (last.toList.map some) := by
        cases last with
        | none => exact List.nil_sublist _
        | some x => simpa using aims_checkOwnTag d Content.isCloseTag x
      rw [hreach, List.map_append, List.map_cons, List.map_cons, List.map_append]
      exact ((aims_checkOwnTag d _ first).append
        (hlast.trans (List.sublist_append_right _ _))).cons _
    · exact List.nil_sublist _
  · exact (aims_checkTag _ _).trans ((v.self_sublist_reach _).map some)

end Rules.TagName

theorem Rules.QuotedValue.aims_checkVisit (d : Document) (v : Visit) (skip : Visit → Bool) :
    ((checkVisit d v).map Offense.aim).Sublist ((v.reach skip).map some) := by
  refine List.Sublist.trans ?_ ((v.self_sublist_reach skip).map some)
  unfold checkVisit
  split
  · exact List.Sublist.refl _
  · exact List.nil_sublist _

/-! ## Fixes that succeed -/

/-- The fix of the node succeeds in every document that came from `d` by fixes of other nodes. -/
structure Mends (fix : NodeId → Edit Bool) (d : Document) (t : NodeId) : Prop where
  target : ∃ c, d.content? t = some c ∧ c.IsFixable ∧ ∀ name equals value,
      c ≠ .attr name equals value
  run : ∀ e ts now, d.Targets ts → Tracks d e (d.mendedBy ts) (d.isLive · = true) now → t ∉ ts →
    ∃ e' now', (fix t).run e = .ok true e' ∧
      Tracks d e' (d.mendedBy (t :: ts)) (d.isLive · = true) now'

section Mends

variable {d : Document} {ps : List Piece} {t : NodeId}

theorem Rules.TagName.mends (h : d.Holds ps) {n : Node} (hn : d.get? t = some n)
    (hlower : (lowerTag? n.content).isSome = true) : Mends fix d t := by
  obtain ⟨c, hlower⟩ := Option.isSome_iff_exists.mp hlower
  have hc := Document.content?_of_get? hn
  have htag : n.content.IsFixable ∧ (∀ content, n.content ≠ .literal content) ∧
      (∀ ids, n.content ≠ .document ids) ∧
      ∀ name equals value, n.content ≠ .attr name equals value := by
    cases hcontent : n.content <;> simp_all [lowerTag?, Content.IsFixable]
  obtain ⟨hfix, hliteral, hdocument, hattr⟩ := htag
  refine ⟨⟨_, hc, hfix, hattr⟩, fun e ts now _ htracks hnew => ?_⟩
  have hfresh : t ∉ d.mendedBy ts := by rwa [Document.mem_mendedBy_iff ts hc hliteral]
  exact run_fix htracks (Document.isLive_of_get? hn) hfresh hn (h.ne_root hc hdocument) hlower

theorem Rules.QuotedValue.mends (h : d.Holds ps) (hf : d.Forest [d.root]) {location : Location}
    {closeQuote : Option Token} {children : List NodeId}
    (hn : d.get? t = some ⟨location, .attrValue none children closeQuote⟩) : Mends fix d t := by
  have hc := Document.content?_of_get? hn
  refine ⟨⟨_, hc, trivial, by simp⟩, fun e ts now hts htracks hnew => ?_⟩
  have hfresh : t ∉ d.mendedBy ts := by rwa [Document.mem_mendedBy_iff ts hc (by simp)]
  exact run_fix htracks (Document.isLive_of_get? hn) hfresh (h.ne_root hc (by simp)) hn
    (h.parts_fresh hf hts hc hnew)

end Mends

/-! ## One pass -/

namespace FixPass

variable {d : Document} {find : String → Option (NodeId → Edit Bool)} {p : FixPass}
  {ts : List NodeId}

/-- So far the pass has mended these nodes, and nothing has failed. -/
structure Mended (d : Document) (p : FixPass) (ts : List NodeId) : Prop where
  tracks : ∃ now, Tracks d p.document (d.mendedBy ts) (d.isLive · = true) now
  targets : d.Targets ts
  noFlags : d.NoFlags ts
  applied : p.applied = ts.length
  failures : p.failures = []

theorem mended_start (hf : d.Forest [d.root]) : Mended d { document := d } [] :=
  ⟨⟨_, .refl hf⟩, by simp [Document.Targets], by simp [Document.NoFlags], rfl, rfl⟩

theorem mended_step (hp : Mended d p ts) (mode : FixMode) {o : Offense} {t : NodeId}
    (hfix : o.fix = some ⟨t, .safe⟩) {fix : NodeId → Edit Bool} (hfound : find o.rule = some fix)
    (hmends : Mends fix d t) (hnew : t ∉ ts) : Mended d (p.step find mode o) (t :: ts) := by
  obtain ⟨now, htracks⟩ := hp.tracks
  obtain ⟨e', now', hrun, htracks'⟩ := hmends.run _ _ _ hp.targets htracks hnew
  obtain ⟨c, hc, hfixable, hattr⟩ := hmends.target
  have hstep : p.step find mode o = { p with document := e', applied := p.applied + 1 } := by
    cases mode <;> simp [step, hfix, FixMode.allows, hfound, hrun, Attempt.ofRun, record]
  rw [hstep]
  refine ⟨⟨now', htracks'⟩, List.forall_mem_cons.mpr ⟨⟨c, hc, hfixable⟩, hp.targets⟩,
    List.forall_mem_cons.mpr ⟨?_, hp.noFlags⟩, by simp [hp.applied], hp.failures⟩
  intro name equals value hattr'
  rw [hc] at hattr'
  exact hattr _ _ _ (Option.some.inj hattr')

theorem mended_run (hf : d.Forest [d.root]) (mode : FixMode) {offenses : List Offense}
    (hnodup : (offenses.map Offense.aim).Nodup)
    (h : ∀ o ∈ offenses, ∃ t fix, o.fix = some ⟨t, .safe⟩ ∧ find o.rule = some fix ∧
      Mends fix d t) :
    ∃ ts, Mended d (run find mode d offenses) ts ∧
      ts.map some = (offenses.map Offense.aim).reverse := by
  have hfold (p : FixPass) (ts : List NodeId) (hp : Mended d p ts)
      (hnew : ∀ t ∈ ts, some t ∉ offenses.map Offense.aim) :
      ∃ ts', Mended d (offenses.foldl (step find mode) p) ts' ∧
        ts'.map some = (offenses.map Offense.aim).reverse ++ ts.map some := by
    induction offenses generalizing p ts with
    | nil => exact ⟨ts, hp, by simp⟩
    | cons o rest ih =>
      rw [List.forall_mem_cons] at h
      obtain ⟨⟨t, fix, hfix, hfound, hmends⟩, hrest⟩ := h
      have haim : o.aim = some t := by rw [Offense.aim, hfix, Option.map_some]
      rw [List.map_cons, haim, List.nodup_cons] at hnodup
      simp only [List.map_cons, haim, List.mem_cons, not_or] at hnew
      have hstep := mended_step hp mode hfix hfound hmends fun hmem => (hnew t hmem).1 rfl
      obtain ⟨ts', hts', hmap⟩ := ih hnodup.2 hrest _ _ hstep
        (List.forall_mem_cons.mpr ⟨hnodup.1, fun x hx => (hnew x hx).2⟩)
      exact ⟨ts', hts', by simp [hmap, haim]⟩
  obtain ⟨ts, hts, hmap⟩ := hfold _ [] (mended_start hf) (by simp)
  exact ⟨ts, hts, by simpa using hmap⟩

end FixPass

/-! ## Linters with rules on names and quotes -/

def Offense.regraded (severity : Option Severity) (o : Offense) : Offense :=
  { o with severity := severity.getD o.severity }

theorem ActiveRule.offenses_run_plain {a : ActiveRule} {descriptor : Descriptor}
    {check : Document → List Offense} {fix : NodeId → Edit Bool}
    (h : a.rule = .document (.plain descriptor check fix)) (d : Document)
    (directives : List Directive) (c : Context) :
    (a.run d directives c).offenses =
      (check d).map (Offense.regraded (c.severity? descriptor.name)) := by
  have hfind : a.find d directives c = .ok (check d, a.notes) := by
    rw [find, h]
    rfl
  have hname : a.rule.name = descriptor.name := by
    rw [h]
    rfl
  simp only [run, hfind, hname]
  cases c.severity? descriptor.name with
  | none => exact (List.map_id (check d)).symm
  | some severity => rfl

theorem Offense.aims_regraded (severity : Option Severity) (os : List Offense) :
    (os.map (Offense.regraded severity)).map Offense.aim = os.map Offense.aim := by
  rw [List.map_map]
  rfl

namespace ActiveRule

variable {a : ActiveRule} {d : Document} {directives : List Directive} {c : Context}

theorem offers_tagName (hrule : a.rule = Rules.tagName) {o : Offense}
    (ho : o ∈ (a.run d directives c).offenses) :
    ∃ x n, d.get? x = some n ∧ o.Offers Rules.TagName.descriptor x ∧
      (Rules.TagName.lowerTag? n.content).isSome = true := by
  rw [offenses_run_plain hrule] at ho
  obtain ⟨o', ho', rfl⟩ := List.mem_map.mp ho
  obtain ⟨x, n, hn, ⟨hname, hfix⟩, hlower⟩ := Rules.TagName.offers_of_mem_check ho'
  exact ⟨x, n, hn, ⟨hname, hfix⟩, hlower⟩

theorem nodup_aims_tagName (hrule : a.rule = Rules.tagName) {tops : List NodeId}
    (hf : d.Forest tops) :
    ((a.run d directives c).offenses.map Offense.aim).Nodup := by
  rw [offenses_run_plain hrule, Offense.aims_regraded]
  exact nodup_aims_of_reach hf (Rules.TagName.aims_checkVisit d)

end ActiveRule

/-- The linter has the rule on tag names and the rule on quotes, in some order, and no other one. -/
def Linter.OnlyRestyles (l : Linter) : Prop :=
  (l.rules.map ActiveRule.rule).Perm [Rules.tagName, Rules.quotedValue]

namespace Linter

variable {l : Linter} {d : Document} {ps : List Piece}

theorem OnlyRestyles.rule_of_mem (hl : l.OnlyRestyles) {a : ActiveRule} (ha : a ∈ l.rules) :
    a.rule = Rules.tagName ∨ a.rule = Rules.quotedValue := by
  simpa using hl.mem_iff.mp (List.mem_map_of_mem ha)

theorem OnlyRestyles.mem_recommended (hl : l.OnlyRestyles) :
    ∀ a ∈ l.rules, a.rule ∈ Rules.Preset.recommended.rules := by
  intro a ha
  rcases hl.rule_of_mem ha with hrule | hrule <;>
    simp [hrule, Rules.Preset.rules, Rules.documentRules]

theorem OnlyRestyles.nodup_names (hl : l.OnlyRestyles) :
    (l.rules.map fun a => a.rule.name).Nodup := by
  have hnames := (hl.map Rule.name).nodup_iff.mpr (by decide)
  rwa [List.map_map] at hnames

theorem fix?_of_mem (hrules : ∀ a ∈ l.rules, a.rule ∈ Rules.Preset.recommended.rules)
    {a : ActiveRule} (ha : a ∈ l.rules) {descriptor : Descriptor}
    {check : Document → List Offense} {fix : NodeId → Edit Bool}
    (hr : a.rule = .document (.plain descriptor check fix)) :
    l.fix? descriptor.name = some fix := by
  have hsome : (l.fix? descriptor.name).isSome = true := by
    rw [fix?, List.findSome?_isSome_iff]
    exact ⟨a, ha, by simp [ActiveRule.fix?, hr, DocumentRule.plain]⟩
  obtain ⟨fix', hfix'⟩ := Option.isSome_iff_exists.mp hsome
  obtain ⟨b, hb, r, hbr, hname, rfl⟩ := exists_of_fix? hfix'
  have hsame : Rule.document r = .document (.plain descriptor check fix) :=
    Rules.eq_of_name_eq (hbr ▸ hrules b hb) (hr ▸ hrules a ha) hname
  cases hsame
  exact hfix'

theorem OnlyRestyles.offers_of_mem_run (hl : l.OnlyRestyles) {a : ActiveRule}
    (ha : a ∈ l.rules) {o : Offense} (ho : o ∈ (a.run d d.directives l.context).offenses) :
    (a.rule = Rules.tagName ∧ ∃ x n, d.get? x = some n ∧ o.Offers Rules.TagName.descriptor x ∧
        (Rules.TagName.lowerTag? n.content).isSome = true) ∨
      (a.rule = Rules.quotedValue ∧ ∃ x location children closeQuote,
        d.get? x = some ⟨location, .attrValue none children closeQuote⟩ ∧
        o.Offers Rules.QuotedValue.descriptor x) := by
  rcases hl.rule_of_mem ha with hrule | hrule
  · exact Or.inl ⟨hrule, ActiveRule.offers_tagName hrule ho⟩
  · rw [ActiveRule.offenses_run_plain hrule] at ho
    obtain ⟨o', ho', rfl⟩ := List.mem_map.mp ho
    obtain ⟨x, location, children, closeQuote, hn, hname, hfix⟩ :=
      Rules.QuotedValue.offers_of_mem_check ho'
    exact Or.inr ⟨hrule, x, location, children, closeQuote, hn, hname, hfix⟩

theorem OnlyRestyles.mends_of_mem_raw (hl : l.OnlyRestyles) (h : d.Holds ps)
    (hf : d.Forest [d.root]) {o : Offense} (ho : o ∈ l.raw d) :
    ∃ t fix, o.fix = some ⟨t, .safe⟩ ∧ l.fix? o.rule = some fix ∧ Mends fix d t := by
  obtain ⟨a, ha, ho⟩ := List.mem_flatMap.mp ho
  rcases hl.offers_of_mem_run ha ho with
    ⟨hrule, x, n, hn, hoffers, hlower⟩ | ⟨hrule, x, location, children, closeQuote, hn, hoffers⟩
  · refine ⟨x, _, hoffers.fix, ?_, Rules.TagName.mends h hn hlower⟩
    rw [hoffers.rule]
    exact fix?_of_mem hl.mem_recommended ha hrule
  · refine ⟨x, _, hoffers.fix, ?_, Rules.QuotedValue.mends h hf hn⟩
    rw [hoffers.rule]
    exact fix?_of_mem hl.mem_recommended ha hrule

theorem nodup_aims (hl : l.OnlyRestyles) (hf : d.Forest [d.root]) :
    ((l.raw d).map Offense.aim).Nodup := by
  rw [raw, List.map_flatMap, List.nodup_flatMap]
  constructor
  · intro a ha
    rcases hl.rule_of_mem ha with hrule | hrule
    · exact ActiveRule.nodup_aims_tagName hrule hf
    · rw [ActiveRule.offenses_run_plain hrule, Offense.aims_regraded]
      exact nodup_aims_of_reach hf fun v => Rules.QuotedValue.aims_checkVisit d v _
  · -- The two rules report nodes of different kinds.
    have hnames := List.pairwise_map.mp hl.nodup_names
    refine hnames.imp_of_mem fun {a b} ha hb hne => ?_
    have hdiffer {y y' : NodeId} {n : Node} {location : Location} {children : List NodeId}
        {closeQuote : Option Token}
        (hn : d.get? y = some n) (hlower : (Rules.TagName.lowerTag? n.content).isSome = true)
        (hn' : d.get? y' = some ⟨location, .attrValue none children closeQuote⟩) : y ≠ y' := by
      rintro rfl
      rw [hn] at hn'
      cases hn'
      simp [Rules.TagName.lowerTag?] at hlower
    intro x hxa hxb
    obtain ⟨o, ho, hox⟩ := List.mem_map.mp hxa
    obtain ⟨o', ho', hox'⟩ := List.mem_map.mp hxb
    have hsame := hox.trans hox'.symm
    rcases hl.offers_of_mem_run ha ho with ⟨hrule, y, n, hn, hoffers, hlower⟩ | ⟨hrule, y, _,
      _, _, hn, hoffers⟩ <;>
      rcases hl.offers_of_mem_run hb ho' with
        ⟨hrule', y', n', hn', hoffers', hlower'⟩ | ⟨hrule', y', _, _, _, hn', hoffers'⟩
    · exact hne (by rw [hrule, hrule'])
    · rw [hoffers.aim_eq, hoffers'.aim_eq] at hsame
      exact hdiffer hn hlower hn' (Option.some.inj hsame)
    · rw [hoffers.aim_eq, hoffers'.aim_eq] at hsame
      exact hdiffer hn' hlower' hn (Option.some.inj hsame).symm
    · exact hne (by rw [hrule, hrule'])

end Linter

end TemplateLint
