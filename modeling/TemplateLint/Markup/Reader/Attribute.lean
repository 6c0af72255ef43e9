import TemplateLint.Markup.Reader.Erb

/-!
# Reading attributes
-/

namespace TemplateLint.Markup

open Text

/-! ## Values -/

/-- Whether a literal between quotes ends here. -/
def endsQuotedLiteral (quote : Quote) (s : List Char) : Bool :=
  s.head? == some quote.char || startsErb s

/-- Reads the parts of a value up to its closing quote; `start` is the text from its opening quote.
-/
def readQuotedParts (quote : Quote) (start s : List Char) : Read (List ValuePart) :=
  match s with
  | [] => .error ⟨.attributeValue, start⟩
  | c :: rest =>
    if c = quote.char then .ok ([], rest)
    else if startsErb (c :: rest) then
      match h : readErb (c :: rest) with
      | .error e => .error e
      | .ok (tag, rest') =>
        have := length_lt_of_append (append_of_readErb h) tag.text_ne_nil
        match readQuotedParts quote start rest' with
        | .error e => .error e
        | .ok (parts, left) => .ok (.erb tag :: parts, left)
    else
      let span := spanUntil (endsQuotedLiteral quote) rest
      have := spanUntil_snd_length_le (endsQuotedLiteral quote) rest
      match readQuotedParts quote start span.2 with
      | .error e => .error e
      | .ok (parts, left) => .ok (.literal (c :: span.1) :: parts, left)
termination_by s.length
decreasing_by all_goals simp_all; try omega

/-- Whether a value without quotes ends here. -/
def endsBare : List Char → Bool
  | c :: _ => isBlank c || c == '>'
  | [] => true

/-- Whether a literal outside quotes ends here. -/
def endsBareLiteral (s : List Char) : Bool := endsBare s || startsErb s

/-- Reads the parts of a value without quotes. -/
def readBareParts (s : List Char) : Read (List ValuePart) :=
  match s with
  | [] => .ok ([], [])
  | c :: rest =>
    if endsBare (c :: rest) then .ok ([], c :: rest)
    else if startsErb (c :: rest) then
      match h : readErb (c :: rest) with
      | .error e => .error e
      | .ok (tag, rest') =>
        have := length_lt_of_append (append_of_readErb h) tag.text_ne_nil
        match readBareParts rest' with
        | .error e => .error e
        | .ok (parts, left) => .ok (.erb tag :: parts, left)
    else
      let span := spanUntil endsBareLiteral rest
      have := spanUntil_snd_length_le endsBareLiteral rest
      match readBareParts span.2 with
      | .error e => .error e
      | .ok (parts, left) => .ok (.literal (c :: span.1) :: parts, left)
termination_by s.length
decreasing_by all_goals simp_all; try omega

def readValue (s : List Char) : Read Value :=
  let quoted (quote : Quote) (rest : List Char) : Read Value :=
    match readQuotedParts quote s rest with
    | .error e => .error e
    | .ok (parts, left) => .ok (⟨some quote, parts⟩, left)
  match s with
  | '"' :: rest => quoted .double rest
  | '\'' :: rest => quoted .single rest
  | _ =>
    match readBareParts s with
    | .error e => .error e
    | .ok (parts, left) => .ok (⟨none, parts⟩, left)

theorem append_of_readQuotedParts {quote : Quote} {start s left : List Char}
    {parts : List ValuePart} (h : readQuotedParts quote start s = .ok (parts, left)) :
    parts.flatMap ValuePart.text ++ quote.char :: left = s := by
  fun_induction readQuotedParts quote start s generalizing parts with
  | case1 => cases h
  | case2 => cases h; rfl
  | case3 => cases h
  | case4 => cases h
  | case5 c rest _ _ tag rest' he _ inner left' hr ih =>
    cases h
    rw [← append_of_readErb he, ← ih hr]
    simp [ValuePart.text]
  | case6 => cases h
  | case7 c rest _ _ span _ inner left' hr =>
    rename_i ih
    cases h
    have := spanUntil_append (endsQuotedLiteral quote) rest
    rw [← this, ← ih hr]
    simp [ValuePart.text, span]

theorem append_of_readBareParts {s left : List Char} {parts : List ValuePart}
    (h : readBareParts s = .ok (parts, left)) : parts.flatMap ValuePart.text ++ left = s := by
  fun_induction readBareParts s generalizing parts with
  | case1 => cases h; rfl
  | case2 => cases h; rfl
  | case3 => cases h
  | case4 => cases h
  | case5 c rest _ _ tag rest' he _ inner left' hr ih =>
    cases h
    rw [← append_of_readErb he, ← ih hr]
    simp [ValuePart.text]
  | case6 => cases h
  | case7 c rest _ _ span _ inner left' hr =>
    rename_i ih
    cases h
    have := spanUntil_append endsBareLiteral rest
    rw [← this, ← ih hr]
    simp [ValuePart.text, span]

theorem append_of_readValue {s left : List Char} {v : Value} (h : readValue s = .ok (v, left)) :
    v.text ++ left = s := by
  unfold readValue at h
  simp only at h
  split at h <;> split at h <;> cases h
  · rename_i hr
    simp [Value.text, Quote.char, ← append_of_readQuotedParts hr]
  · rename_i hr
    simp [Value.text, Quote.char, ← append_of_readQuotedParts hr]
  · rename_i hr
    simp [Value.text, append_of_readBareParts hr]

/-! ## Attributes -/

/-- A name runs as far as its characters do, and takes one character at least. -/
def splitAttributeName : List Char → List Char × List Char
  | [] => ([], [])
  | c :: rest =>
    if isAttributeNameChar c then
      (c :: rest.takeWhile isAttributeNameChar, rest.dropWhile isAttributeNameChar)
    else ([c], rest)

def readAttribute (s : List Char) : Read Attribute :=
  let split := splitAttributeName s
  match split.2 with
  | '=' :: rest =>
    match readValue rest with
    | .error e => .error e
    | .ok (value, left) => .ok (⟨split.1, some value⟩, left)
  | left => .ok (⟨split.1, none⟩, left)

@[simp] theorem splitAttributeName_append (s : List Char) :
    (splitAttributeName s).1 ++ (splitAttributeName s).2 = s := by
  unfold splitAttributeName
  split
  · rfl
  · split <;> simp

theorem splitAttributeName_fst_ne_nil (c : Char) (rest : List Char) :
    (splitAttributeName (c :: rest)).1 ≠ [] := by
  unfold splitAttributeName
  split <;> simp_all
  split <;> simp

theorem append_of_readAttribute {s left : List Char} {a : Attribute}
    (h : readAttribute s = .ok (a, left)) : a.text ++ left = s := by
  unfold readAttribute at h
  have hs := splitAttributeName_append s
  simp only at h
  split at h
  · rename_i rest he
    split at h <;> cases h
    rename_i hv
    simp [Attribute.text, append_of_readValue hv, ← he]
  · cases h
    simp [Attribute.text]

theorem name_ne_nil_of_readAttribute {c : Char} {rest left : List Char} {a : Attribute}
    (h : readAttribute (c :: rest) = .ok (a, left)) : a.name ≠ [] := by
  unfold readAttribute at h
  have hn := splitAttributeName_fst_ne_nil c rest
  simp only at h
  split at h
  · split at h <;> cases h
    exact hn
  · cases h
    exact hn

theorem text_ne_nil_of_readAttribute {c : Char} {rest left : List Char} {a : Attribute}
    (h : readAttribute (c :: rest) = .ok (a, left)) : a.text ≠ [] := by
  have := name_ne_nil_of_readAttribute h
  unfold Attribute.text
  split <;> simp [this]

end TemplateLint.Markup
