import Mathlib.Order.Bounds.Basic
import TemplateLint.Proofs.Building

/-!
# Suggestions

For an unknown name the nearest valid one is suggested. How near a name is, is computed row by row;
the rows hold the least costs of putting two texts side by side. Main statement: the distance is the
least number of edits that turn one text into the other, and what is suggested is the nearest name
in reach, of several the one with the least bytes (`suggestion?_nearest`).
-/

namespace TemplateLint.Text

variable {a b c before : List Char} {m n : Nat} {x y : Char}

/-! ## Edits -/

/-- One character is inserted, deleted or substituted. -/
inductive EditStep : List Char → List Char → Prop where
  | insert (before after : List Char) (x : Char) : EditStep (before ++ after) (before ++ x :: after)
  | delete (before after : List Char) (x : Char) : EditStep (before ++ x :: after) (before ++ after)
  | substitute (before after : List Char) (x y : Char) :
      EditStep (before ++ x :: after) (before ++ y :: after)

/-- So many steps, one after the other, turn the first text into the second. -/
inductive Edits : Nat → List Char → List Char → Prop where
  | done (a : List Char) : Edits 0 a a
  | step {n : Nat} {a b c : List Char} (h : EditStep a b) (rest : Edits n b c) : Edits (n + 1) a c

theorem EditStep.cons (h : EditStep a b) (x : Char) : EditStep (x :: a) (x :: b) := by
  cases h with
  | insert before after y => exact .insert (x :: before) after y
  | delete before after y => exact .delete (x :: before) after y
  | substitute before after y z => exact .substitute (x :: before) after y z

theorem EditStep.reverse (h : EditStep a b) : EditStep a.reverse b.reverse := by
  cases h with
  | insert before after y => simpa using EditStep.insert after.reverse before.reverse y
  | delete before after y => simpa using EditStep.delete after.reverse before.reverse y
  | substitute before after y z => simpa using EditStep.substitute after.reverse before.reverse y z

theorem Edits.cons (h : Edits n a b) (x : Char) : Edits n (x :: a) (x :: b) := by
  induction h with
  | done a => exact .done (x :: a)
  | step h _ ih => exact .step (h.cons x) ih

theorem Edits.reverse (h : Edits n a b) : Edits n a.reverse b.reverse := by
  induction h with
  | done a => exact .done a.reverse
  | step h _ ih => exact .step h.reverse ih

/-! ## Texts side by side -/

/-- The texts stand side by side, and all but `n` characters are kept. -/
inductive Aligned : Nat → List Char → List Char → Prop where
  | nil : Aligned 0 [] []
  | keep {n : Nat} {a b : List Char} (x : Char) (h : Aligned n a b) : Aligned n (x :: a) (x :: b)
  | substitute {n : Nat} {a b : List Char} (x y : Char) (h : Aligned n a b) :
      Aligned (n + 1) (x :: a) (y :: b)
  | delete {n : Nat} {a b : List Char} (x : Char) (h : Aligned n a b) : Aligned (n + 1) (x :: a) b
  | insert {n : Nat} {a b : List Char} (y : Char) (h : Aligned n a b) : Aligned (n + 1) a (y :: b)

namespace Aligned

theorem edits (h : Aligned n a b) : Edits n a b := by
  induction h with
  | nil => exact .done []
  | keep x _ ih => exact ih.cons x
  | @substitute _ a _ x y _ ih => exact .step (.substitute [] a x y) (ih.cons y)
  | @delete _ a _ x _ ih => exact .step (.delete [] a x) ih
  | @insert _ a _ y _ ih => exact .step (.insert [] a y) (ih.cons y)

theorem append_left (before : List Char) (h : Aligned n a b) :
    Aligned n (before ++ a) (before ++ b) := by
  induction before with
  | nil => exact h
  | cons x before ih => exact .keep x ih

theorem refl (a : List Char) : Aligned 0 a a := by simpa using Aligned.nil.append_left a

theorem insertAll (h : Aligned n a b) (more : List Char) :
    Aligned (more.length + n) a (more ++ b) := by
  induction more with
  | nil => simpa using h
  | cons y more ih =>
    rw [List.length_cons, Nat.add_right_comm]
    exact .insert y ih

theorem uncons (h : Aligned n (x :: a) c) :
    ∃ more beside rest m, c = more ++ (beside ++ rest) ∧ Aligned m a rest ∧ beside.length ≤ 1 ∧
      more.length + (m + if beside = [x] then 0 else 1) ≤ n := by
  -- Beside the first character stand some insertions and then at most one character, free if it is
  -- kept.
  generalize htext : x :: a = text at h
  induction h with
  | nil => cases htext
  | @keep n _ rest y h _ =>
    cases htext
    exact ⟨[], [x], rest, n, rfl, h, Nat.le_refl 1, by simp⟩
  | @substitute n _ rest y z h _ =>
    cases htext
    refine ⟨[], [z], rest, n, rfl, h, Nat.le_refl 1, ?_⟩
    split <;> simp
  | @delete n _ rest y h _ =>
    cases htext
    exact ⟨[], [], rest, n, rfl, h, Nat.zero_le 1, by simp⟩
  | insert y _ ih =>
    obtain ⟨more, beside, rest, m, rfl, h, hbeside, hcost⟩ := ih htext
    refine ⟨y :: more, beside, rest, m, rfl, h, hbeside, ?_⟩
    rw [List.length_cons]
    omega

theorem cons (h : Aligned m a b) {beside : List Char} (hbeside : beside.length ≤ 1) (x : Char) :
    Aligned (m + if beside = [x] then 0 else 1) (x :: a) (beside ++ b) := by
  match beside with
  | [] => exact .delete x h
  | [y] =>
    split
    · rename_i hy
      cases hy
      exact .keep x h
    · exact .substitute x y h
  | _ :: _ :: _ =>
    simp at hbeside

theorem trans (h : Aligned m a b) (h' : Aligned n b c) : ∃ k ≤ m + n, Aligned k a c := by
  induction h generalizing n c with
  | nil => exact ⟨n, by omega, h'⟩
  | keep x _ ih =>
    obtain ⟨more, beside, rest, j, rfl, hrest, hbeside, hcost⟩ := h'.uncons
    obtain ⟨k, hk, hall⟩ := ih hrest
    exact ⟨_, by omega, (hall.cons hbeside x).insertAll more⟩
  | @substitute m _ _ x y _ ih =>
    obtain ⟨more, beside, rest, j, rfl, hrest, hbeside, hcost⟩ := h'.uncons
    obtain ⟨k, hk, hall⟩ := ih hrest
    refine ⟨_, ?_, (hall.cons hbeside x).insertAll more⟩
    split <;> omega
  | delete x _ ih =>
    obtain ⟨k, hk, hall⟩ := ih h'
    exact ⟨k + 1, by omega, .delete x hall⟩
  | insert y _ ih =>
    -- What was inserted goes again or stays: either way it is one insertion at most.
    obtain ⟨more, beside, rest, j, rfl, hrest, hbeside, hcost⟩ := h'.uncons
    obtain ⟨k, hk, hall⟩ := ih hrest
    exact ⟨_, by omega, (hall.insertAll beside).insertAll more⟩

end Aligned

theorem EditStep.aligned (h : EditStep a b) : Aligned 1 a b := by
  cases h with
  | insert before after x => exact ((Aligned.refl after).insert x).append_left before
  | delete before after x => exact ((Aligned.refl after).delete x).append_left before
  | substitute before after x y => exact ((Aligned.refl after).substitute x y).append_left before

theorem Edits.exists_aligned (h : Edits n a b) : ∃ m ≤ n, Aligned m a b := by
  induction h with
  | done a => exact ⟨0, Nat.le_refl 0, .refl a⟩
  | step h _ ih =>
    obtain ⟨m, hm, hrest⟩ := ih
    obtain ⟨k, hk, hall⟩ := h.aligned.trans hrest
    exact ⟨k, by omega, hall⟩

/-! ## Least costs -/

/-- The least cost of putting the texts side by side. -/
def IsDistance (a b : List Char) (n : Nat) : Prop := IsLeast {m | Aligned m a b} n

namespace IsDistance

variable {diagonal up left : Nat}

theorem nil_nil : IsDistance [] [] 0 := ⟨.nil, fun _ _ => Nat.zero_le _⟩

theorem cons_nil (h : IsDistance a [] n) (x : Char) : IsDistance (x :: a) [] (n + 1) := by
  refine ⟨.delete x h.1, fun m hm => ?_⟩
  cases hm with
  | delete _ hm => exact Nat.succ_le_succ (h.2 hm)

theorem nil_cons (h : IsDistance [] b n) (y : Char) : IsDistance [] (y :: b) (n + 1) := by
  refine ⟨.insert y h.1, fun m hm => ?_⟩
  cases hm with
  | insert _ hm => exact Nat.succ_le_succ (h.2 hm)

theorem cons_cons (hdiagonal : IsDistance a b diagonal) (hup : IsDistance a (y :: b) up)
    (hleft : IsDistance (x :: a) b left) :
    IsDistance (x :: a) (y :: b)
      (min (min (diagonal + if x = y then 0 else 1) (up + 1)) (left + 1)) := by
  constructor
  · have hone : [y].length ≤ 1 := Nat.le_refl 1
    have hbeside := hdiagonal.1.cons hone x
    simp only [List.cons.injEq, and_true, eq_comm (a := y)] at hbeside
    rcases min_choice (min (diagonal + if x = y then 0 else 1) (up + 1)) (left + 1) with h | h
    · rw [h]
      rcases min_choice (diagonal + if x = y then 0 else 1) (up + 1) with h' | h'
      · rw [h']
        exact hbeside
      · rw [h']
        exact .delete x hup.1
    · rw [h]
      exact .insert y hleft.1
  · intro m hm
    cases hm with
    | keep _ hm =>
      have := hdiagonal.2 hm
      simp only [if_true]
      omega
    | substitute _ _ hm =>
      have := hdiagonal.2 hm
      split <;> omega
    | delete _ hm =>
      have := hup.2 hm
      omega
    | insert _ hm =>
      have := hleft.2 hm
      omega

end IsDistance

/-! ## Rows -/

/-- The distances from `a` to `before` and on to all of `b` behind it; both are read backwards. -/
def IsRow (a : List Char) : (before b : List Char) → (row : List Nat) → Prop
  | before, [], row => ∃ n, row = [n] ∧ IsDistance a before n
  | before, y :: b, row =>
    ∃ n rest, row = n :: rest ∧ IsDistance a before n ∧ IsRow a (y :: before) b rest

namespace IsRow

variable {row : List Nat} {left : Nat}

theorem exists_cons (h : IsRow a before b row) :
    ∃ n rest, row = n :: rest ∧ IsDistance a before n := by
  cases b with
  | nil =>
    obtain ⟨n, rfl, hn⟩ := h
    exact ⟨n, [], rfl, hn⟩
  | cons y b =>
    obtain ⟨n, rest, rfl, hn, -⟩ := h
    exact ⟨n, rest, rfl, hn⟩

theorem range' (h : IsDistance [] before n) (b : List Char) :
    IsRow [] before b (List.range' n (b.length + 1)) := by
  induction b generalizing before n with
  | nil => exact ⟨n, rfl, h⟩
  | cons y b ih =>
    exact ⟨n, List.range' (n + 1) (b.length + 1), List.range'_succ, h, ih (h.nil_cons y)⟩

theorem nextRow (h : IsRow a before b row) (hleft : IsDistance (x :: a) before left) :
    IsRow (x :: a) before b (left :: nextRow x left row b) := by
  induction b generalizing before left row with
  | nil =>
    obtain ⟨n, rfl, -⟩ := h
    exact ⟨left, rfl, hleft⟩
  | cons y b ih =>
    obtain ⟨diagonal, rest, rfl, hdiagonal, hrest⟩ := h
    obtain ⟨up, above, rfl, hup⟩ := hrest.exists_cons
    exact ⟨left, _, rfl, hleft, ih hrest (hdiagonal.cons_cons hup hleft)⟩

theorem distanceRow (h : IsRow a [] b row) (more : List Char) :
    IsRow (more.reverse ++ a) [] b (distanceRow b row more) := by
  induction more generalizing a row with
  | nil => exact h
  | cons x more ih =>
    obtain ⟨n, rest, rfl, hn⟩ := h.exists_cons
    rw [List.reverse_cons, List.append_assoc, List.singleton_append]
    exact ih (h.nextRow (hn.cons_nil x))

theorem getLastD (h : IsRow a before b row) :
    IsDistance a (b.reverse ++ before) (row.getLastD 0) := by
  induction b generalizing before row with
  | nil =>
    obtain ⟨n, rfl, hn⟩ := h
    exact hn
  | cons y b ih =>
    obtain ⟨n, rest, rfl, -, hrest⟩ := h
    obtain ⟨up, above, rfl, -⟩ := hrest.exists_cons
    have hlast := ih hrest
    rw [List.getLastD_cons] at hlast
    rw [List.reverse_cons, List.append_assoc, List.singleton_append,
      List.getLastD_cons, List.getLastD_cons]
    exact hlast

end IsRow

theorem isDistance_editDistance (a b : List Char) :
    IsDistance a.reverse b.reverse (editDistance a b) := by
  have hfirst : IsRow [] [] b (List.range (b.length + 1)) := by
    rw [List.range_eq_range']
    exact .range' .nil_nil b
  simpa [editDistance] using (hfirst.distanceRow a).getLastD

/-- The distance is the least number of edits. -/
theorem isLeast_editDistance (a b : List Char) : IsLeast {n | Edits n a b} (editDistance a b) := by
  obtain ⟨hmem, hleast⟩ := isDistance_editDistance a b
  constructor
  · simpa using hmem.edits.reverse
  · intro n hn
    obtain ⟨m, hm, haligned⟩ := hn.reverse.exists_aligned
    exact (hleast haligned).trans hm

end TemplateLint.Text

namespace TemplateLint.Rules.UnknownName

open Text

/-! ## The nearest name -/

/-- The name is a valid one, and the nearest of them; of several it has the least bytes. -/
def IsNearest (name : String) (names : List String) (candidate : String) : Prop :=
  candidate ∈ names ∧ ∀ other ∈ names,
    editDistance name.toList candidate.toList < editDistance name.toList other.toList ∨
      editDistance name.toList candidate.toList = editDistance name.toList other.toList ∧
        utf8Bytes candidate ≤ utf8Bytes other

variable {name candidate : String} {names : List String}

theorem IsNearest.unique {other : String} (h : IsNearest name names candidate)
    (h' : IsNearest name names other) :
    candidate = other := by
  obtain ⟨hmem, hnear⟩ := h
  obtain ⟨hmem', hnear'⟩ := h'
  have hbytes {a b : String}
      (hab : editDistance name.toList a.toList < editDistance name.toList b.toList ∨
      editDistance name.toList a.toList = editDistance name.toList b.toList ∧
      utf8Bytes a ≤ utf8Bytes b)
      (hle : editDistance name.toList b.toList ≤ editDistance name.toList a.toList) : a ≤ b := by
    rcases hab with hlt | ⟨-, hbytes⟩
    · omega
    · exact (le_iff_utf8Bytes a b).mpr hbytes
  have hle := hnear other hmem'
  have hge := hnear' candidate hmem
  exact le_antisymm (hbytes hle (by omega)) (hbytes hge (by omega))

theorem nearest_eq_none_iff {candidates : List (Nat × String)} :
    nearest candidates = none ↔ candidates = [] := by
  cases candidates with
  | nil => simp [nearest]
  | cons first rest =>
    rw [nearest]
    cases nearest rest with
    | none => simp
    | some later =>
      simp only [reduceCtorEq, iff_false]
      split <;> simp

theorem nearest_eq_some {candidates : List (Nat × String)} {best : Nat × String}
    (h : nearest candidates = some best) :
    ∃ before after, candidates = before ++ best :: after ∧ (∀ x ∈ before, best.1 < x.1) ∧
      ∀ x ∈ after, best.1 ≤ x.1 := by
  induction candidates generalizing best with
  | nil => simp [nearest] at h
  | cons first rest ih =>
    rw [nearest] at h
    cases hrest : nearest rest with
    | none =>
      simp only [hrest] at h
      obtain rfl := Option.some.inj h
      exact ⟨[], [], by rw [nearest_eq_none_iff.mp hrest]; rfl, by simp, by simp⟩
    | some later =>
      obtain ⟨before, after, rfl, hbefore, hafter⟩ := ih hrest
      simp only [hrest] at h
      split at h
      · rename_i hlt
        obtain rfl := Option.some.inj h
        exact ⟨first :: before, after, rfl, List.forall_mem_cons.mpr ⟨hlt, hbefore⟩, hafter⟩
      · rename_i hle
        obtain rfl := Option.some.inj h
        refine ⟨[], _, rfl, by simp, fun x hx => ?_⟩
        rcases List.mem_append.mp hx with hx | hx
        · have := hbefore x hx
          omega
        · rcases List.mem_cons.mp hx with rfl | hx
          · omega
          · have := hafter x hx
            omega

def inReach (name : String) (names : List String) : List (Nat × String) :=
  (names.map fun valid => (editDistance name.toList valid.toList, valid)).filter (·.1 ≤ reach)

theorem mem_inReach {distance : Nat} {valid : String} : (distance, valid) ∈ inReach name names ↔
    valid ∈ names ∧ editDistance name.toList valid.toList = distance ∧ distance ≤ reach := by
  simp only [inReach, List.mem_filter, List.mem_map, Prod.mk.injEq, decide_eq_true_eq]
  constructor
  · rintro ⟨⟨valid, hvalid, rfl, rfl⟩, hreach⟩
    exact ⟨hvalid, rfl, hreach⟩
  · rintro ⟨hvalid, rfl, hreach⟩
    exact ⟨⟨valid, hvalid, rfl, rfl⟩, hreach⟩

theorem suggestion?_eq (name : String) (names : List String) :
    suggestion? name names = (nearest (inReach name names)).map (·.2) := rfl

theorem isSome_suggestion?_iff :
    (suggestion? name names).isSome = true ↔ ∃ valid ∈ names,
      editDistance name.toList valid.toList ≤ reach := by
  rw [suggestion?_eq, Option.isSome_map, Option.isSome_iff_ne_none, ne_eq, nearest_eq_none_iff,
    List.eq_nil_iff_forall_not_mem]
  simp only [Prod.forall, mem_inReach, not_forall, not_not]
  constructor
  · rintro ⟨_, valid, hvalid, rfl, hreach⟩
    exact ⟨valid, hvalid, hreach⟩
  · rintro ⟨valid, hvalid, hreach⟩
    exact ⟨_, valid, hvalid, rfl, hreach⟩

theorem isNearest_of_suggestion? (hsorted : names.Pairwise (· ≤ ·))
    (h : suggestion? name names = some candidate) :
    IsNearest name names candidate ∧ editDistance name.toList candidate.toList ≤ reach := by
  rw [suggestion?_eq] at h
  obtain ⟨⟨distance, valid⟩, hbest, rfl⟩ := Option.map_eq_some_iff.mp h
  obtain ⟨before, after, hsplit, hbefore, hafter⟩ := nearest_eq_some hbest
  have hmem : (distance, valid) ∈ inReach name names := by simp [hsplit]
  obtain ⟨hvalid, rfl, hreach⟩ := mem_inReach.mp hmem
  refine ⟨⟨hvalid, fun other hother => ?_⟩, hreach⟩
  by_cases hfar : editDistance name.toList other.toList ≤ reach
  · have hordered : (inReach name names).Pairwise fun x y => x.2 ≤ y.2 := by
      apply List.Pairwise.filter
      rw [List.pairwise_map]
      exact hsorted
    have hin : (editDistance name.toList other.toList, other) ∈ inReach name names :=
      mem_inReach.mpr ⟨hother, rfl, hfar⟩
    rw [hsplit, List.pairwise_append, List.pairwise_cons] at hordered
    rw [hsplit, List.mem_append, List.mem_cons] at hin
    rcases hin with hin | heq | hin
    · exact Or.inl (hbefore _ hin)
    · obtain ⟨-, rfl⟩ := Prod.mk.inj heq
      exact Or.inr ⟨rfl, List.le_refl _⟩
    · -- What stands behind it is no nearer, and its name is not before.
      refine (Nat.lt_or_eq_of_le (hafter _ hin)).imp_right fun hsame => ⟨hsame, ?_⟩
      exact (le_iff_utf8Bytes _ _).mp (hordered.2.1.1 _ hin)
  · exact Or.inl (hreach.trans_lt (Nat.lt_of_not_le hfar))

end TemplateLint.Rules.UnknownName

namespace TemplateLint

open Text Rules.UnknownName

/-- The valid name at the least number of edits is suggested, if that is three or less. -/
theorem suggestion?_nearest (name : String) {c : Context}
    (hsorted : c.validNames.Pairwise (· ≤ ·)) :
    (∀ a b : String, IsLeast {n | Edits n a.toList b.toList} (editDistance a.toList b.toList)) ∧
      ((suggestion? name c.validNames).isSome = true ↔
        ∃ valid ∈ c.validNames, editDistance name.toList valid.toList ≤ 3) ∧
      (∀ candidate, suggestion? name c.validNames = some candidate ↔
        IsNearest name c.validNames candidate ∧ editDistance name.toList candidate.toList ≤ 3) ∧
      ∀ p : LinterPlan, p.context.validNames.Pairwise (· ≤ ·) := by
  refine ⟨fun a b => isLeast_editDistance _ _, isSome_suggestion?_iff, fun candidate => ?_,
    fun p => sortNames_pairwise _⟩
  refine ⟨isNearest_of_suggestion? hsorted, fun ⟨hnearest, hreach⟩ => ?_⟩
  obtain ⟨found, hfound⟩ :=
    Option.isSome_iff_exists.mp (isSome_suggestion?_iff.mpr ⟨candidate, hnearest.1, hreach⟩)
  rw [hfound, hnearest.unique (isNearest_of_suggestion? hsorted hfound).1]

/-- Four names of a plan are one edit away, and they are sorted, whatever the order of its rules
is. -/
theorem suggestion?_nearest_plan : switchedPlan.context.validNames.Pairwise (· ≤ ·) ∧
    suggestion? "ä" switchedPlan.context.validNames = some "a" ∧
    IsLeast {n | Edits n "kitten".toList "sitting".toList} 3 := by
  have hsorted :=
    sortNames_pairwise (unnecessaryRule :: switchedPlan.knownNames ++ switchedPlan.names)
  obtain ⟨hleast, -, hsome, -⟩ := suggestion?_nearest "ä" (c := switchedPlan.context) hsorted
  have hothers : ∀ other ∈ unnecessaryRule :: switchedPlan.knownNames ++ switchedPlan.names,
      editDistance "ä".toList "a".toList < editDistance "ä".toList other.toList ∨
        editDistance "ä".toList "a".toList = editDistance "ä".toList other.toList ∧
        "a" ≤ other := by
    decide +kernel
  refine ⟨hsorted,
    (hsome "a").mpr ⟨⟨mem_sortNames.mpr (by decide), fun other hother => ?_⟩, by decide⟩, ?_⟩
  · rw [← le_iff_utf8Bytes]
    exact hothers other (mem_sortNames.mp hother)
  · exact hleast "kitten" "sitting"

end TemplateLint
