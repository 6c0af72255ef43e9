import TemplateLint.Markup.Reader.Piece
import Mathlib.Data.List.Basic
import Mathlib.Data.List.TakeWhile

/-!
# What reads back

A reader looks at most a few characters past what it takes, so whether a construct reads back
depends on its own text and on the character behind it. Each construct has a predicate here; what a
reader gives satisfies it, and what satisfies it reads back as it is.
-/

namespace TemplateLint.Text

/-! ## Cuts and spans -/

theorem isPrefixOf_append_left {mark a : List Char} (h : mark.length ≤ a.length) (b : List Char) :
    mark.isPrefixOf (a ++ b) = mark.isPrefixOf a := by
  rw [Bool.eq_iff_iff, List.isPrefixOf_iff_prefix, List.isPrefixOf_iff_prefix]
  constructor
  · intro hp
    exact List.prefix_of_prefix_length_le hp (List.prefix_append a b) h
  · intro hp
    exact hp.trans (List.prefix_append a b)

theorem cut_append {mark before after : List Char} (hmark : mark ≠ [])
    (h : cut mark (before ++ mark ++ after) = some (before, after)) (later : List Char) :
    cut mark (before ++ mark ++ later) = some (before, later) := by
  induction before with
  | nil =>
    obtain ⟨m, rest, rfl⟩ := List.exists_cons_of_ne_nil hmark
    have hp : (m :: rest).isPrefixOf (m :: rest ++ later) = true :=
      List.isPrefixOf_iff_prefix.mpr (List.prefix_append _ _)
    rw [List.nil_append, List.cons_append, cut, ← List.cons_append, if_pos hp, List.drop_left]
  | cons c before ih =>
    have hlen : mark.length ≤ (c :: before ++ mark).length := by simp; omega
    rw [List.append_assoc, List.cons_append, cut, ← List.append_assoc,
      ← List.cons_append, ← List.cons_append, isPrefixOf_append_left hlen] at h ⊢
    cases hp : mark.isPrefixOf (c :: before ++ mark) with
    | true =>
      simp only [hp, if_true, Option.some.injEq, Prod.mk.injEq, reduceCtorEq, false_and] at h
    | false =>
      simp only [hp, Bool.false_eq_true, if_false, Option.map_eq_some_iff,
        Prod.mk.injEq, List.cons.injEq, true_and] at h ⊢
      obtain ⟨⟨b, a⟩, hcut, rfl, rfl⟩ := h
      exact ⟨_, ih hcut, rfl, rfl⟩

theorem cut_eq_none_iff {mark : List Char} (hmark : mark ≠ []) (s : List Char) :
    cut mark s = none ↔ ¬ mark <:+: s := by
  induction s with
  | nil => simp [cut, hmark]
  | cons c rest ih =>
    rw [cut, List.infix_cons_iff, ← List.isPrefixOf_iff_prefix]
    split
    · rename_i hp
      simp [hp]
    · rename_i hp
      simp [hp, ih]

theorem not_infix_of_cut {mark s before after : List Char} (hmark : mark ≠ [])
    (h : cut mark s = some (before, after)) :
    ¬ mark <:+: before := by
  rw [← cut_eq_none_iff hmark]
  induction s generalizing before with
  | nil => simp [cut] at h
  | cons c rest ih =>
    have htext := append_of_cut h
    rw [cut] at h
    split at h
    · cases h
      rfl
    · rename_i hp
      obtain ⟨⟨b, a⟩, hcut, heq⟩ := Option.map_eq_some_iff.mp h
      cases heq
      have hshort : ¬ mark.isPrefixOf (c :: b) = true := by
        rw [← htext, List.isPrefixOf_iff_prefix, List.append_assoc] at hp
        rw [List.isPrefixOf_iff_prefix]
        exact fun hpre => hp (hpre.trans (List.prefix_append _ _))
      rw [cut, if_neg hshort, ih hcut]
      rfl

theorem spanUntil_eq {stop : List Char → Bool} {a b : List Char}
    (hgo : ∀ u, u ≠ [] → u <:+ a → stop (u ++ b) = false) (hstop : b = [] ∨ stop b = true) :
    spanUntil stop (a ++ b) = (a, b) := by
  induction a with
  | nil =>
    cases b with
    | nil => rfl
    | cons c rest => simp [spanUntil, hstop.resolve_left (by simp)]
  | cons c a ih =>
    have hc := hgo (c :: a) (by simp) List.suffix_rfl
    have hrest := ih fun u hu hs => hgo u hu (hs.trans (List.suffix_cons c a))
    rw [List.cons_append] at hc ⊢
    rw [spanUntil, hc, hrest]
    rfl

theorem spanUntil_go (stop : List Char → Bool) (s : List Char) :
    ∀ u, u ≠ [] → u <:+ (spanUntil stop s).1 → stop (u ++ (spanUntil stop s).2) = false := by
  induction s with
  | nil =>
    intro u hu hs
    exact absurd (List.eq_nil_of_suffix_nil hs) hu
  | cons c rest ih =>
    intro u hu hs
    rw [spanUntil] at hs ⊢
    cases hc : stop (c :: rest) with
    | true =>
      simp only [hc, if_true] at hs
      exact absurd (List.eq_nil_of_suffix_nil hs) hu
    | false =>
      simp only [hc, Bool.false_eq_true, if_false] at hs ⊢
      rcases List.suffix_cons_iff.mp hs with rfl | hs
      · simpa using hc
      · exact ih u hu hs

theorem spanUntil_stop (stop : List Char → Bool) (s : List Char) :
    (spanUntil stop s).2 = [] ∨ stop (spanUntil stop s).2 = true := by
  induction s with
  | nil => exact Or.inl rfl
  | cons c rest ih =>
    rw [spanUntil]
    cases hc : stop (c :: rest) with
    | true => simp [hc]
    | false => simpa using ih

end TemplateLint.Text

namespace TemplateLint.Markup

open Text

/-! ## Embedded Ruby -/

/-- The tag is read as it is, whatever comes behind it. -/
def Erb.Closes (e : Erb) : Prop := ∀ rest, readErb (e.text ++ rest) = .ok (e, rest)

theorem readErbOpening_congr {o : ErbOpening} {body body' : List Char}
    (hhead : body'.head? = body.head?) (h : readErbOpening (o.text ++ body) = some (o, body)) :
    readErbOpening (o.text ++ body') = some (o, body') := by
  cases body with
  | nil =>
    obtain rfl : body' = [] := List.head?_eq_none_iff.mp hhead
    exact h
  | cons c rest =>
    obtain ⟨rest', rfl⟩ : ∃ rest', body' = c :: rest' := by
      rw [List.head?_cons, List.head?_eq_some_iff] at hhead
      exact hhead
    cases o with
    | rawOutput => rfl
    | comment => rfl
    | trimmed => rfl
    | output =>
      have hc : c ≠ '=' := by
        rintro rfl
        simp [ErbOpening.text, readErbOpening] at h
      simp [ErbOpening.text, readErbOpening, hc]
    | plain =>
      have hc : c ≠ '=' ∧ c ≠ '#' ∧ c ≠ '-' := by
        refine ⟨?_, ?_, ?_⟩
        · rintro rfl
          cases rest with
          | nil => simp [ErbOpening.text, readErbOpening] at h
          | cons x rest => by_cases hx : x = '=' <;> simp [ErbOpening.text, readErbOpening, hx] at h
        · rintro rfl
          simp [ErbOpening.text, readErbOpening] at h
        · rintro rfl
          simp [ErbOpening.text, readErbOpening] at h
      simp [ErbOpening.text, readErbOpening, hc]

theorem closes_of_readErb {s rest : List Char} {e : Erb} (h : readErb s = .ok (e, rest)) :
    e.Closes := by
  unfold readErb at h
  split at h
  · cases h
  · rename_i o body ho
    split at h
    · cases h
    · rename_i inside rest' hcut
      cases h
      intro later
      have hs := append_of_readErbOpening ho
      have hbody := append_of_cut hcut
      subst hs hbody
      have hopening : readErbOpening (o.text ++ (inside ++ ['%', '>'] ++ later)) =
          some (o, inside ++ ['%', '>'] ++ later) := by
        apply readErbOpening_congr _ ho
        cases inside <;> rfl
      rw [Erb.text_ofInside, readErb]
      simp only [List.append_assoc] at hopening ⊢
      rw [hopening]
      simp only [← List.append_assoc]
      rw [cut_append (by simp) hcut later]

theorem length_le_of_readErbOpening {s body : List Char} {o : ErbOpening}
    (h : readErbOpening s = some (o, body)) {other : ErbOpening} (hother : other.text <+: s) :
    other.text.length ≤ o.text.length := by
  unfold readErbOpening at h
  obtain ⟨rest, rfl⟩ := hother
  split at h <;> cases h <;> cases other <;> grind [ErbOpening.text]

/-- The tag ends where it has to, and its opening is as long as it can be. -/
structure Erb.Complete (e : Erb) : Prop where
  longest : ∀ o : ErbOpening, o.text <+: e.text → o.text.length ≤ e.opening.text.length
  noClosing : ¬ ['%', '>'] <:+: e.content
  noDash : e.closing = ['%', '>'] → e.content.getLast? ≠ some '-'

theorem Erb.complete_ofInside {o : ErbOpening} {inside : List Char}
    (hinside : ¬ ['%', '>'] <:+: inside) (hlongest : ∀ o' : ErbOpening,
      o'.text <+: o.text ++ inside ++ ['%', '>'] → o'.text.length ≤ o.text.length) :
    (ofInside o inside).Complete := by
  rw [← text_ofInside] at hlongest
  unfold ofInside at hlongest ⊢
  split
  · rename_i hdash
    rw [if_pos hdash] at hlongest
    exact ⟨hlongest,
      fun hin => hinside (hin.trans (List.dropLast_prefix inside).isInfix), by simp [closing]⟩
  · rename_i hdash
    rw [if_neg hdash] at hlongest
    exact ⟨hlongest, hinside, fun _ => hdash⟩

theorem Erb.Closes.complete {e : Erb} (h : e.Closes) : e.Complete := by
  have hread := h []
  unfold readErb at hread
  split at hread
  · cases hread
  · rename_i o body ho
    split at hread
    · cases hread
    · rename_i inside rest hcut
      cases hread
      apply complete_ofInside (not_infix_of_cut (by simp) hcut)
      intro o' hp
      apply length_le_of_readErbOpening ho
      rw [List.append_nil, text_ofInside]
      exact hp

theorem startsErb_iff (s : List Char) : startsErb s = true ↔ ['<', '%'] <+: s := by
  match s with
  | [] => simp [startsErb]
  | [c] => simp [startsErb, List.cons_prefix_cons]
  | c :: x :: rest =>
    by_cases hc : c = '<' <;> by_cases hx : x = '%' <;>
      simp [startsErb, List.cons_prefix_cons, hc, hx, eq_comm]

theorem startsErb_of_append {u : List Char} (b : List Char) (h : startsErb (u ++ b) = false) :
    startsErb u = false := by
  rw [Bool.eq_false_iff, ne_eq, startsErb_iff] at h ⊢
  exact fun hp => h (hp.trans (List.prefix_append u b))

theorem startsErb_append {u b : List Char} (hu : u ≠ []) (hb : b.head? ≠ some '%') :
    startsErb (u ++ b) = startsErb u := by
  rw [Bool.eq_iff_iff, startsErb_iff, startsErb_iff]
  match u, b with
  | [c], [] => simp
  | [c], x :: rest =>
    have hx : x ≠ '%' := by simpa using hb
    simp [List.cons_prefix_cons, Ne.symm hx]
  | c :: x :: rest, b => simp [List.cons_prefix_cons]

theorem startsErb_erb (e : Erb) (rest : List Char) : startsErb (e.text ++ rest) = true := by
  obtain ⟨o, content, trims⟩ := e
  cases o <;> rfl

/-! ## Values -/

/-- A literal that holds characters with `ok` only and no start of embedded Ruby. -/
structure IsLiteral (ok : Char → Bool) (t : List Char) : Prop where
  ne_nil : t ≠ []
  ok : ∀ c ∈ t, ok c = true
  noErb : ∀ u, u <:+ t → startsErb u = false

/-- Parts of a value whose literals hold characters with `ok`. No literal follows another one. -/
inductive Parts (ok : Char → Bool) : List ValuePart → Prop where
  | nil : Parts ok []
  | erb {e : Erb} {rest : List ValuePart} (he : e.Closes) (hrest : Parts ok rest) :
      Parts ok (.erb e :: rest)
  | last {t : List Char} (ht : IsLiteral ok t) : Parts ok [.literal t]
  | literal {t : List Char} {e : Erb} {rest : List ValuePart} (ht : IsLiteral ok t)
      (hrest : Parts ok (.erb e :: rest)) : Parts ok (.literal t :: .erb e :: rest)

def isBareChar (c : Char) : Bool := !isBlank c && c != '>'

theorem endsBare_iff (s : List Char) :
    endsBare s = true ↔ ∀ c, s.head? = some c → isBareChar c = false := by
  cases s with
  | nil => simp [endsBare]
  | cons c rest => 
    simp only [endsBare, isBareChar, List.head?_cons, Option.some.injEq, forall_eq']
    cases isBlank c <;> cases hc : c == '>' <;> simp_all

theorem isLiteral_span {ok : Char → Bool} {stop : List Char → Bool} {c : Char} {rest : List Char}
    (hstop : ∀ c rest, stop (c :: rest) = false → ok c = true ∧ startsErb (c :: rest) = false)
    (hc : stop (c :: rest) = false) : IsLiteral ok (c :: (spanUntil stop rest).1) := by
  have hall : ∀ u, u ≠ [] → u <:+ c :: (spanUntil stop rest).1 →
      stop (u ++ (spanUntil stop rest).2) = false := by
    intro u hu hs
    rcases List.suffix_cons_iff.mp hs with rfl | hs
    · rw [List.cons_append, spanUntil_append]
      exact hc
    · exact spanUntil_go stop rest u hu hs
  refine ⟨by simp, ?_, ?_⟩
  · intro x hx
    obtain ⟨before, after, hsplit⟩ := List.append_of_mem hx
    have hu := hall (x :: after) (by simp) ⟨before, hsplit.symm⟩
    exact (hstop _ _ hu).1
  · intro u hs
    cases u with
    | nil => rfl
    | cons x after =>
      have hu := hall (x :: after) (by simp) hs
      rw [List.cons_append] at hu
      exact startsErb_of_append (spanUntil stop rest).2 (hstop _ _ hu).2

theorem span_literal {ok : Char → Bool} {stop : List Char → Bool} {t later : List Char}
    (ht : IsLiteral ok t)
    (hgo : ∀ c rest, ok c = true → startsErb (c :: rest) = false → stop (c :: rest) = false)
    (hlater : later.head? ≠ some '%') (hstop : later = [] ∨ stop later = true) :
    spanUntil stop (t ++ later) = (t, later) := by
  apply spanUntil_eq _ hstop
  intro u hu hs
  cases u with
  | nil => exact absurd rfl hu
  | cons c after =>
    rw [List.cons_append]
    apply hgo
    · exact ht.ok c (hs.subset List.mem_cons_self)
    · rw [← List.cons_append, startsErb_append (by simp) hlater]
      exact ht.noErb _ hs

theorem parts_cons_literal {ok : Char → Bool} {t : List Char}
    {parts : List ValuePart} (ht : IsLiteral ok t) (hparts : Parts ok parts)
    (hnext : ∀ u rest, parts ≠ .literal u :: rest) : Parts ok (.literal t :: parts) := by
  match parts with
  | [] => exact .last ht
  | .erb e :: rest => exact .literal ht hparts
  | .literal u :: rest => exact absurd rfl (hnext u rest)

theorem Parts.mono {ok ok' : Char → Bool} {parts : List ValuePart} (h : Parts ok parts)
    (hok : ∀ t, .literal t ∈ parts → ∀ c ∈ t, ok' c = true) : Parts ok' parts := by
  induction h with
  | nil => exact .nil
  | erb he _ ih => exact .erb he (ih fun t ht => hok t (List.mem_cons_of_mem _ ht))
  | last ht => exact .last ⟨ht.ne_nil, hok _ List.mem_cons_self, ht.noErb⟩
  | literal ht _ ih =>
    exact .literal ⟨ht.ne_nil, hok _ List.mem_cons_self, ht.noErb⟩
      (ih fun t ht => hok t (List.mem_cons_of_mem _ ht))

theorem endsQuotedLiteral_false {quote : Quote} {c : Char} {rest : List Char} :
    endsQuotedLiteral quote (c :: rest) = false ↔ (c != quote.char) = true ∧
      startsErb (c :: rest) = false := by
  simp [endsQuotedLiteral]

theorem endsBareLiteral_false {c : Char} {rest : List Char} :
    endsBareLiteral (c :: rest) = false ↔ isBareChar c = true ∧ startsErb (c :: rest) = false := by
  simp [endsBareLiteral, endsBare, isBareChar]

theorem not_literal_of_readQuotedParts {quote : Quote} {start s left : List Char}
    {parts : List ValuePart} (h : readQuotedParts quote start s = .ok (parts, left))
    (hs : s = [] ∨ endsQuotedLiteral quote s = true) :
    ∀ u rest, parts ≠ .literal u :: rest := by
  rintro u rest rfl
  cases s with
  | nil => simp [readQuotedParts] at h
  | cons c s =>
    have hstop := hs.resolve_left (by simp)
    rw [readQuotedParts] at h
    split at h
    · simp at h
    · rename_i hc
      split at h
      · split at h
        · simp at h
        · split at h <;> simp at h
      · rename_i herb
        simp [endsQuotedLiteral, hc, herb] at hstop

theorem parts_of_readQuotedParts {quote : Quote} {start s left : List Char} {parts : List ValuePart}
    (h : readQuotedParts quote start s = .ok (parts, left)) : Parts (· != quote.char) parts := by
  fun_induction readQuotedParts quote start s generalizing parts with
  | case1 => cases h
  | case2 => cases h; exact .nil
  | case3 => cases h
  | case4 => cases h
  | case5 c rest _ _ tag rest' he _ inner left' hr ih =>
    cases h
    exact .erb (closes_of_readErb he) (ih hr)
  | case6 => cases h
  | case7 c rest hc herb span _ inner left' hr =>
    rename_i ih
    cases h
    apply parts_cons_literal _ (ih hr) (not_literal_of_readQuotedParts hr (spanUntil_stop _ rest))
    apply isLiteral_span (fun _ _ => endsQuotedLiteral_false.mp)
    exact endsQuotedLiteral_false.mpr ⟨by simpa using hc, by simpa using herb⟩

theorem Erb.text_eq_cons (e : Erb) : ∃ rest, e.text = '<' :: rest := by
  obtain ⟨o, content, trims⟩ := e
  cases o <;> exact ⟨_, rfl⟩

theorem readQuotedParts_erb {quote : Quote} {start s left : List Char}
    {parts : List ValuePart} {e : Erb} (he : e.Closes)
    (h : readQuotedParts quote start s = .ok (parts, left)) :
    readQuotedParts quote start (e.text ++ s) = .ok (.erb e :: parts, left) := by
  have hread := he s
  have hstart := startsErb_erb e s
  obtain ⟨rest, htext⟩ := e.text_eq_cons
  rw [htext, List.cons_append] at hread hstart ⊢
  have hquote : '<' ≠ quote.char := by cases quote <;> decide
  rw [readQuotedParts, if_neg hquote, if_pos hstart]
  split
  · rename_i hread'
    simp [hread] at hread'
  · rename_i hread'
    rw [hread] at hread'
    cases hread'
    rw [h]

theorem readQuotedParts_literal {quote : Quote} {start t later left : List Char}
    {parts : List ValuePart} (ht : IsLiteral (· != quote.char) t) (hlater : later.head? ≠ some '%')
    (hstop : later = [] ∨ endsQuotedLiteral quote later = true)
    (h : readQuotedParts quote start later = .ok (parts, left)) :
    readQuotedParts quote start (t ++ later) = .ok (.literal t :: parts, left) := by
  have hspan := span_literal ht (fun _ _ hc he => endsQuotedLiteral_false.mpr ⟨hc, he⟩) hlater hstop
  obtain ⟨c, rest, rfl⟩ := List.exists_cons_of_ne_nil ht.ne_nil
  have hc : c ≠ quote.char := by simpa using ht.ok c List.mem_cons_self
  have herb : startsErb (c :: (rest ++ later)) = false := by
    rw [← List.cons_append, startsErb_append (by simp) hlater]
    exact ht.noErb _ List.suffix_rfl
  have hgo : endsQuotedLiteral quote (c :: (rest ++ later)) = false :=
    endsQuotedLiteral_false.mpr ⟨by simpa using hc, herb⟩
  rw [List.cons_append, spanUntil, hgo] at hspan
  simp only [Bool.false_eq_true, if_false, Prod.mk.injEq, List.cons.injEq, true_and] at hspan
  rw [List.cons_append, readQuotedParts, if_neg hc, herb]
  simp [hspan, h]

theorem readQuotedParts_of_parts {quote : Quote} {parts : List ValuePart}
    (h : Parts (· != quote.char) parts) (start left : List Char) :
    readQuotedParts quote start (parts.flatMap ValuePart.text ++ quote.char :: left) =
      .ok (parts, left) := by
  induction h with
  | nil => rw [List.flatMap_nil, List.nil_append, readQuotedParts, if_pos rfl]
  | @erb e rest he _ ih =>
    rw [List.flatMap_cons, ValuePart.text, List.append_assoc]
    exact readQuotedParts_erb he ih
  | @last t ht =>
    rw [List.flatMap_singleton, ValuePart.text]
    apply readQuotedParts_literal ht
    · cases quote <;> simp [Quote.char]
    · simp [endsQuotedLiteral]
    · rw [readQuotedParts, if_pos rfl]
  | @literal t e rest ht _ ih =>
    rw [List.flatMap_cons, List.append_assoc, ValuePart.text]
    refine readQuotedParts_literal ht ?_ (Or.inr ?_) ih
    · obtain ⟨tail, htext⟩ := e.text_eq_cons
      simp [ValuePart.text, htext]
    · simp [endsQuotedLiteral, ValuePart.text, startsErb_erb]

theorem endsBare_of_readBareParts {s left : List Char} {parts : List ValuePart}
    (h : readBareParts s = .ok (parts, left)) : endsBare left = true := by
  fun_induction readBareParts s generalizing parts with
  | case1 => cases h; rfl
  | case2 c rest hends => cases h; exact hends
  | case3 => cases h
  | case4 => cases h
  | case5 c rest _ _ tag rest' he _ inner left' hr ih => cases h; exact ih hr
  | case6 => cases h
  | case7 c rest _ _ span _ inner left' hr =>
    rename_i ih
    cases h
    exact ih hr

theorem readBareParts_empty : readBareParts [] = .ok ([], []) := by rw [readBareParts.eq_def]

theorem readBareParts_cons (c : Char) (rest : List Char) :
    readBareParts (c :: rest) =
      if endsBare (c :: rest) then .ok ([], c :: rest)
      else if startsErb (c :: rest) then
        match readErb (c :: rest) with
        | .error e => .error e
        | .ok (tag, rest') =>
          match readBareParts rest' with
          | .error e => .error e
          | .ok (parts, left) => .ok (.erb tag :: parts, left)
      else
        match readBareParts (spanUntil endsBareLiteral rest).2 with
        | .error e => .error e
        | .ok (parts, left) =>
          .ok (.literal (c :: (spanUntil endsBareLiteral rest).1) :: parts, left) := by
  rw [readBareParts.eq_def]
  simp only
  split
  · rfl
  · split
    · split
      · rename_i e hread
        exact hread ▸ rfl
      · rename_i tag rest' hread
        exact hread ▸ rfl
    · rfl

theorem not_literal_of_readBareParts {s left : List Char} {parts : List ValuePart}
    (h : readBareParts s = .ok (parts, left)) (hs : s = [] ∨ endsBareLiteral s = true) :
    ∀ u rest, parts ≠ .literal u :: rest := by
  rintro u rest rfl
  cases s with
  | nil =>
    rw [readBareParts_empty] at h
    cases h
  | cons c s =>
    have hstop := hs.resolve_left (by simp)
    rw [readBareParts_cons] at h
    split at h
    · simp at h
    · rename_i hc
      split at h
      · split at h
        · simp at h
        · split at h <;> simp at h
      · rename_i herb
        simp [endsBareLiteral, hc, herb] at hstop

theorem parts_of_readBareParts {s left : List Char} {parts : List ValuePart}
    (h : readBareParts s = .ok (parts, left)) : Parts isBareChar parts := by
  fun_induction readBareParts s generalizing parts with
  | case1 => cases h; exact .nil
  | case2 => cases h; exact .nil
  | case3 => cases h
  | case4 => cases h
  | case5 c rest _ _ tag rest' he _ inner left' hr ih =>
    cases h
    exact .erb (closes_of_readErb he) (ih hr)
  | case6 => cases h
  | case7 c rest hc herb span _ inner left' hr =>
    rename_i ih
    cases h
    apply parts_cons_literal _ (ih hr) (not_literal_of_readBareParts hr (spanUntil_stop _ rest))
    apply isLiteral_span (fun _ _ => endsBareLiteral_false.mp)
    simp [endsBareLiteral, hc, herb]

theorem readBareParts_nil {left : List Char} (h : endsBare left = true) :
    readBareParts left = .ok ([], left) := by
  cases left with
  | nil => exact readBareParts_empty
  | cons c rest => rw [readBareParts_cons, if_pos h]

theorem endsBare_erb (e : Erb) (s : List Char) : endsBare (e.text ++ s) = false := by
  obtain ⟨rest, htext⟩ := e.text_eq_cons
  rw [htext]
  rfl

theorem readBareParts_erb {s left : List Char} {parts : List ValuePart} {e : Erb}
    (he : e.Closes) (h : readBareParts s = .ok (parts, left)) :
    readBareParts (e.text ++ s) = .ok (.erb e :: parts, left) := by
  have hread := he s
  have hstart := startsErb_erb e s
  have hends := endsBare_erb e s
  obtain ⟨rest, htext⟩ := e.text_eq_cons
  rw [htext, List.cons_append] at hread hstart hends ⊢
  rw [readBareParts_cons, hends, if_neg (by simp), if_pos hstart]
  split
  · rename_i hread'
    simp [hread] at hread'
  · rename_i hread'
    rw [hread] at hread'
    cases hread'
    rw [h]

theorem readBareParts_literal {t later left : List Char} {parts : List ValuePart}
    (ht : IsLiteral isBareChar t) (hlater : later.head? ≠ some '%')
    (hstop : later = [] ∨ endsBareLiteral later = true)
    (h : readBareParts later = .ok (parts, left)) :
    readBareParts (t ++ later) = .ok (.literal t :: parts, left) := by
  have hspan := span_literal ht (fun _ _ hc he => endsBareLiteral_false.mpr ⟨hc, he⟩) hlater hstop
  obtain ⟨c, rest, rfl⟩ := List.exists_cons_of_ne_nil ht.ne_nil
  have hc := ht.ok c List.mem_cons_self
  have herb : startsErb (c :: (rest ++ later)) = false := by
    rw [← List.cons_append, startsErb_append (by simp) hlater]
    exact ht.noErb _ List.suffix_rfl
  have hends : endsBare (c :: (rest ++ later)) = false := by
    simpa [endsBare, isBareChar] using hc
  have hgo : endsBareLiteral (c :: (rest ++ later)) = false := endsBareLiteral_false.mpr ⟨hc, herb⟩
  rw [List.cons_append, spanUntil, hgo] at hspan
  simp only [Bool.false_eq_true, if_false, Prod.mk.injEq, List.cons.injEq, true_and] at hspan
  rw [List.cons_append, readBareParts_cons, hends, herb]
  simp [hspan, h]

theorem readBareParts_of_parts {parts : List ValuePart}
    (h : Parts isBareChar parts) {left : List Char} (hleft : endsBare left = true) :
    readBareParts (parts.flatMap ValuePart.text ++ left) = .ok (parts, left) := by
  have hhead : left.head? ≠ some '%' := by
    intro hc
    exact absurd ((endsBare_iff left).mp hleft '%' hc) (by decide)
  induction h with
  | nil => exact readBareParts_nil hleft
  | @erb e rest he _ ih =>
    rw [List.flatMap_cons, ValuePart.text, List.append_assoc]
    exact readBareParts_erb he ih
  | @last t ht =>
    rw [List.flatMap_singleton, ValuePart.text]
    exact readBareParts_literal ht hhead (Or.inr (by simp [endsBareLiteral, hleft]))
      (readBareParts_nil hleft)
  | @literal t e rest ht _ ih =>
    rw [List.flatMap_cons, List.append_assoc, ValuePart.text]
    refine readBareParts_literal ht ?_ (Or.inr ?_) ih
    · obtain ⟨tail, htext⟩ := e.text_eq_cons
      simp [ValuePart.text, htext]
    · simp [endsBareLiteral, ValuePart.text, startsErb_erb]

/-- The value reads back before a text that starts with `next`. -/
def Value.Fits (v : Value) (next : Option Char) : Prop :=
  match v.quote with
  | some quote => Parts (· != quote.char) v.parts
  | none => Parts isBareChar v.parts ∧ (∀ c, next = some c → isBareChar c = false) ∧
      ∀ quote : Quote, v.text.head? ≠ some quote.char

theorem fits_of_readValue {s left : List Char} {v : Value} (h : readValue s = .ok (v, left)) :
    v.Fits left.head? := by
  have htext := append_of_readValue h
  unfold readValue at h
  simp only at h
  split at h <;> split at h <;> cases h
  · rename_i hr
    exact parts_of_readQuotedParts hr
  · rename_i hr
    exact parts_of_readQuotedParts hr
  · rename_i hdouble hsingle _ _ hr
    refine ⟨parts_of_readBareParts hr, (endsBare_iff left).mp (endsBare_of_readBareParts hr), ?_⟩
    intro quote hhead
    obtain ⟨tail, htail⟩ := List.head?_eq_some_iff.mp hhead
    rw [htail] at htext
    cases quote with
    | double => exact hdouble _ htext.symm
    | single => exact hsingle _ htext.symm

theorem readValue_of_fits {v : Value} {left : List Char} (h : v.Fits left.head?) :
    readValue (v.text ++ left) = .ok (v, left) := by
  obtain ⟨quote, parts⟩ := v
  cases quote with
  | some quote =>
    have hread := readQuotedParts_of_parts h
    cases quote <;> simp [readValue, Value.text, Quote.char] at hread ⊢ <;> simp [hread]
  | none =>
    obtain ⟨hparts, hnext, hhead⟩ := h
    have hleft : endsBare left = true := (endsBare_iff left).mpr hnext
    have hread := readBareParts_of_parts hparts hleft
    have hquote (quote : Quote) (rest : List Char) :
        parts.flatMap ValuePart.text ++ left ≠ quote.char :: rest := by
      intro heq
      cases htext : parts.flatMap ValuePart.text with
      | nil =>
        rw [htext, List.nil_append] at heq
        have := hnext quote.char (by simp [heq])
        cases quote <;> simp [isBareChar, Quote.char] at this <;> exact absurd this (by decide)
      | cons c tail =>
        rw [htext, List.cons_append, List.cons.injEq] at heq
        exact hhead quote (by simp [Value.text, htext, heq.1])
    have hvalue : (⟨none, parts⟩ : Value).text = parts.flatMap ValuePart.text := by
      simp [Value.text]
    rw [hvalue, readValue, hread]
    · exact hquote .double
    · exact hquote .single

/-! ## Attributes -/

/-- A name is a run of name characters, or one other character. -/
def IsAttributeName (name : List Char) : Prop :=
  name ≠ [] ∧
  ((∀ c ∈ name, isAttributeNameChar c = true) ∨ ∃ c, name = [c] ∧ isAttributeNameChar c = false)

def NameStops (name : List Char) (next : Option Char) : Prop :=
  (∀ c ∈ name, isAttributeNameChar c = true) → ∀ c, next = some c → isAttributeNameChar c = false

theorem splitAttributeName_spec (c : Char) (rest : List Char) :
    IsAttributeName (splitAttributeName (c :: rest)).1 ∧
      NameStops (splitAttributeName (c :: rest)).1 (splitAttributeName (c :: rest)).2.head? := by
  rw [splitAttributeName]
  cases hc : isAttributeNameChar c with
  | true =>
    simp only [if_true]
    refine ⟨⟨by simp, Or.inl ?_⟩, fun _ x hx => ?_⟩
    · simp only [List.mem_cons, forall_eq_or_imp, hc, true_and]
      intro x hx
      exact List.mem_takeWhile_imp hx
    · have := List.head?_dropWhile_not isAttributeNameChar rest
      rw [hx] at this
      simpa using this
  | false =>
    simp only [Bool.false_eq_true, if_false]
    exact ⟨⟨by simp, Or.inr ⟨c, rfl, hc⟩⟩, fun hall => by simp [hc] at hall⟩

theorem splitAttributeName_append_of {name s : List Char} (hname : IsAttributeName name)
    (hstop : NameStops name s.head?) : splitAttributeName (name ++ s) = (name, s) := by
  obtain ⟨hne, hall | ⟨c, rfl, hc⟩⟩ := hname
  · obtain ⟨c, rest, rfl⟩ := List.exists_cons_of_ne_nil hne
    have hrest : ∀ x ∈ rest, isAttributeNameChar x = true :=
      fun x hx => hall x (List.mem_cons_of_mem _ hx)
    have hs : s.takeWhile isAttributeNameChar = [] ∧ s.dropWhile isAttributeNameChar = s := by
      cases s with
      | nil => simp
      | cons x tail => simp [hstop hall x rfl]
    rw [List.cons_append, splitAttributeName, hall c List.mem_cons_self,
      List.takeWhile_append_of_pos hrest, List.dropWhile_append_of_pos hrest]
    simp [hs]
  · simp [splitAttributeName, hc]

def Attribute.Fits (a : Attribute) (next : Option Char) : Prop :=
  IsAttributeName a.name ∧
    match a.value with
    | some v => v.Fits next
    | none => NameStops a.name next ∧ next ≠ some '='

theorem fits_of_readAttribute {c : Char} {rest left : List Char} {a : Attribute}
    (h : readAttribute (c :: rest) = .ok (a, left)) : a.Fits left.head? := by
  obtain ⟨hname, hstop⟩ := splitAttributeName_spec c rest
  unfold readAttribute at h
  simp only at h
  split at h
  · split at h <;> cases h
    rename_i hv
    exact ⟨hname, fits_of_readValue hv⟩
  · rename_i hne
    cases h
    refine ⟨hname, hstop, ?_⟩
    intro hhead
    obtain ⟨tail, htail⟩ := List.head?_eq_some_iff.mp hhead
    exact hne tail htail

theorem isAttributeNameChar_equals : isAttributeNameChar '=' = false := by decide

theorem readAttribute_of_fits {a : Attribute} {left : List Char} (h : a.Fits left.head?) :
    readAttribute (a.text ++ left) = .ok (a, left) := by
  obtain ⟨name, value⟩ := a
  obtain ⟨hname, hvalue⟩ := h
  cases value with
  | some v =>
    have hstop : NameStops name ('=' :: (v.text ++ left)).head? := by
      intro _ c hc
      obtain rfl : '=' = c := by simpa using hc
      exact isAttributeNameChar_equals
    have hsplit := splitAttributeName_append_of hname hstop
    simp [readAttribute, Attribute.text, hsplit, readValue_of_fits hvalue]
  | none =>
    have hsplit := splitAttributeName_append_of hname hvalue.1
    cases left with
    | nil => simp only [readAttribute, Attribute.text, hsplit]
    | cons c rest =>
      have hc : c ≠ '=' := by simpa using hvalue.2
      simp [readAttribute, Attribute.text, hsplit, hc]

/-! ## Tags -/

/-- An attribute may be read here: neither the tag ends nor something else starts. -/
structure StartsAttribute (s : List Char) : Prop where
  noSelfClosing : ¬ ['/', '>'] <+: s
  noClosing : ¬ ['>'] <+: s
  noErb : ¬ ['<', '%'] <+: s
  noBlank : ∀ c, s.head? = some c → isBlank c = false

theorem prefix_append_congr {mark u v w : List Char} (hmark : mark.length ≤ 2) (hu : u ≠ [])
    (h : v.head? = w.head?) : mark <+: u ++ v ↔ mark <+: u ++ w := by
  have htake : (u ++ v).take 2 = (u ++ w).take 2 := by
    match u, v, w with
    | [_], [], [] => rfl
    | [_], x :: _, y :: _ =>
      obtain rfl : x = y := by simpa using h
      simp
    | [_], [], _ :: _ => simp at h
    | [_], _ :: _, [] => simp at h
    | _ :: _ :: _, _, _ => simp
  have hstarts (s : List Char) : mark <+: s ↔ mark <+: s.take 2 := by
    simp [List.prefix_take_iff, hmark]
  rw [hstarts, htake, ← hstarts]

theorem StartsAttribute.congr {u v w : List Char} (hu : u ≠ []) (h : v.head? = w.head?)
    (hs : StartsAttribute (u ++ v)) : StartsAttribute (u ++ w) := by
  refine ⟨?_, ?_, ?_, ?_⟩
  · rw [← prefix_append_congr (by decide) hu h]
    exact hs.noSelfClosing
  · rw [← prefix_append_congr (by decide) hu h]
    exact hs.noClosing
  · rw [← prefix_append_congr (by decide) hu h]
    exact hs.noErb
  · rw [List.head?_append_of_ne_nil u hu]
    have hblank := hs.noBlank
    rwa [List.head?_append_of_ne_nil u hu] at hblank

def TagPart.Fits (next : Option Char) : TagPart → Prop
  | .erb e => e.Closes
  | .blank t => t ≠ [] ∧ (∀ c ∈ t, isBlank c = true) ∧ ∀ c, next = some c → isBlank c = false
  | .attr a => a.Fits next ∧ StartsAttribute (a.text ++ next.toList)

def tagClosing (closes : Bool) : List Char := if closes then ['/', '>'] else ['>']

/-- Each part reads back before the text of those behind it. -/
def Chained (closes : Bool) : List TagPart → Prop
  | [] => True
  | part :: rest =>
    part.Fits (rest.flatMap TagPart.text ++ tagClosing closes).head? ∧ Chained closes rest

theorem tagClosing_ne_nil (closes : Bool) : tagClosing closes ≠ [] := by cases closes <;> decide

theorem head?_append_closing (s left : List Char) (closes : Bool) :
    (s ++ tagClosing closes ++ left).head? = (s ++ tagClosing closes).head? :=
  List.head?_append_of_ne_nil _ (by simp [tagClosing_ne_nil])

theorem Attribute.text_ne_nil {a : Attribute} (h : a.name ≠ []) : a.text ≠ [] := by
  unfold Attribute.text
  split <;> simp [h]

theorem head?_toList_head? (s : List Char) : s.head?.toList.head? = s.head? := by cases s <;> rfl

theorem startsAttribute_cons {c : Char} {rest : List Char}
    (hself : ∀ tail, c = '/' → rest = '>' :: tail → False) (hclose : c = '>' → False)
    (herb : ¬ startsErb (c :: rest) = true) (hblank : ¬ isBlank c = true) :
    StartsAttribute (c :: rest) := by
  refine ⟨?_, ?_, ?_, ?_⟩
  · rintro ⟨tail, htail⟩
    simp only [List.cons_append, List.nil_append, List.cons.injEq] at htail
    exact hself tail htail.1.symm htail.2.symm
  · rintro ⟨tail, htail⟩
    simp only [List.cons_append, List.cons.injEq] at htail
    exact hclose htail.1.symm
  · rw [← startsErb_iff]
    exact herb
  · simpa using hblank

theorem chained_of_readTagParts {start s left : List Char} {parts : List TagPart} {closes : Bool}
    (h : readTagParts start s = .ok ((parts, closes), left)) : Chained closes parts := by
  fun_induction readTagParts start s generalizing parts with
  | case1 => cases h
  | case2 => cases h; trivial
  | case3 => cases h; trivial
  | case4 => cases h
  | case5 => cases h
  | case6 c rest _ _ _ tag rest' he _ inner closes' left' hr ih =>
    cases h
    exact ⟨closes_of_readErb he, ih hr⟩
  | case7 => cases h
  | case8 c rest _ _ _ hblank _ inner closes' left' hr ih =>
    cases h
    refine ⟨⟨by simp, ?_, ?_⟩, ih hr⟩
    · simp only [List.mem_cons, forall_eq_or_imp, hblank, true_and]
      intro x hx
      exact List.mem_takeWhile_imp hx
    · intro x hx
      have hlater : (rest.dropWhile isBlank).head? = some x := by
        rw [← append_of_readTagParts hr]
        exact (head?_append_closing _ _ _).trans hx
      have := List.head?_dropWhile_not isBlank rest
      rw [hlater] at this
      simpa using this
  | case9 => cases h
  | case10 => cases h
  | case11 c rest hself hclose herb hblank attr rest' he _ inner closes' left' hr ih =>
    cases h
    have hlater : rest'.head? = (inner.flatMap TagPart.text ++ tagClosing closes).head? := by
      rw [← append_of_readTagParts hr]
      exact head?_append_closing _ _ _
    have hfits := fits_of_readAttribute he
    refine ⟨⟨hlater ▸ hfits, ?_⟩, ih hr⟩
    apply StartsAttribute.congr (Attribute.text_ne_nil hfits.1.1) (v := rest')
    · rw [head?_toList_head?, hlater]
    · rw [append_of_readAttribute he]
      exact startsAttribute_cons hself hclose herb hblank

theorem readTagParts_attr {start rest left : List Char} {c : Char}
    (hs : StartsAttribute (c :: rest)) {attr : Attribute} {rest' : List Char}
    (he : readAttribute (c :: rest) = .ok (attr, rest')) {parts : List TagPart} {closes : Bool}
    (h : readTagParts start rest' = .ok ((parts, closes), left)) :
    readTagParts start (c :: rest) = .ok ((.attr attr :: parts, closes), left) := by
  have herb : startsErb (c :: rest) = false := by
    rw [Bool.eq_false_iff, ne_eq, startsErb_iff]
    exact hs.noErb
  have hblank := hs.noBlank c rfl
  rw [readTagParts]
  · rw [herb, hblank]
    simp only [Bool.false_eq_true, if_false]
    split
    · rename_i he'
      simp [he] at he'
    · rename_i he'
      rw [he] at he'
      cases he'
      rw [h]
  · rintro tail rfl rfl
    exact hs.noSelfClosing ⟨tail, rfl⟩
  · rintro rfl
    exact hs.noClosing ⟨rest, rfl⟩

theorem readTagParts_erb {start later left : List Char} {e : Erb} (he : e.Closes)
    {parts : List TagPart} {closes : Bool}
    (h : readTagParts start later = .ok ((parts, closes), left)) :
    readTagParts start (e.text ++ later) = .ok ((.erb e :: parts, closes), left) := by
  have hread := he later
  have hstart := startsErb_erb e later
  obtain ⟨tail, htext⟩ := e.text_eq_cons
  rw [htext, List.cons_append] at hread hstart ⊢
  rw [readTagParts, if_pos hstart]
  · split
    · rename_i hread'
      simp [hread] at hread'
    · rename_i hread'
      rw [hread] at hread'
      cases hread'
      rw [h]
  · simp
  · simp

theorem readTagParts_blank {start later left t : List Char} (ht : t ≠ [])
    (hblank : ∀ c ∈ t, isBlank c = true) (hnext : ∀ c, later.head? = some c → isBlank c = false)
    {parts : List TagPart} {closes : Bool}
    (h : readTagParts start later = .ok ((parts, closes), left)) :
    readTagParts start (t ++ later) = .ok ((.blank t :: parts, closes), left) := by
  obtain ⟨c, rest, rfl⟩ := List.exists_cons_of_ne_nil ht
  have hc := hblank c List.mem_cons_self
  have hrest : ∀ x ∈ rest, isBlank x = true := fun x hx => hblank x (List.mem_cons_of_mem _ hx)
  have hmark : c ≠ '/' ∧ c ≠ '>' ∧ c ≠ '<' := by
    refine ⟨?_, ?_, ?_⟩ <;> rintro rfl <;> exact absurd hc (by decide)
  have herb : startsErb (c :: (rest ++ later)) = false := by
    rw [Bool.eq_false_iff, ne_eq, startsErb_iff, List.cons_prefix_cons]
    exact fun hp => hmark.2.2 hp.1.symm
  have hlater : later.takeWhile isBlank = [] ∧ later.dropWhile isBlank = later := by
    cases later with
    | nil => simp
    | cons x tail => simp [hnext x rfl]
  rw [List.cons_append, readTagParts, herb, if_pos hc, List.takeWhile_append_of_pos hrest,
    List.dropWhile_append_of_pos hrest, hlater.1, hlater.2, h]
  · simp
  · exact fun _ he => absurd he hmark.1
  · exact hmark.2.1

theorem readTagParts_of_chained {parts : List TagPart} {closes : Bool} (h : Chained closes parts)
    (start left : List Char) :
    readTagParts start (parts.flatMap TagPart.text ++ tagClosing closes ++ left) =
      .ok ((parts, closes), left) := by
  induction parts with
  | nil => cases closes <;> simp [tagClosing, readTagParts]
  | cons part rest ih =>
    obtain ⟨hfits, hrest⟩ := h
    have hread := ih hrest
    rw [List.flatMap_cons, List.append_assoc, List.append_assoc]
    rw [List.append_assoc] at hread
    have hhead : (rest.flatMap TagPart.text ++ (tagClosing closes ++ left)).head? =
        (rest.flatMap TagPart.text ++ tagClosing closes).head? := by
      rw [← List.append_assoc]
      exact head?_append_closing _ _ _
    generalize rest.flatMap TagPart.text ++ (tagClosing closes ++ left) = later at hread hhead ⊢
    cases part with
    | erb e => exact readTagParts_erb hfits hread
    | blank t => exact readTagParts_blank hfits.1 hfits.2.1 (hhead ▸ hfits.2.2) hread
    | attr a =>
      obtain ⟨hattr, hstarts⟩ := hfits
      have hread' := readAttribute_of_fits (hhead ▸ hattr)
      have hstarts' : StartsAttribute (a.text ++ later) := by
        apply hstarts.congr (Attribute.text_ne_nil hattr.1.1)
        rw [head?_toList_head?, hhead]
      obtain ⟨c, tail, htext⟩ := List.exists_cons_of_ne_nil (Attribute.text_ne_nil hattr.1.1)
      simp only [TagPart.text, htext, List.cons_append] at hread' hstarts' ⊢
      exact readTagParts_attr hstarts' hread' hread

end TemplateLint.Markup
