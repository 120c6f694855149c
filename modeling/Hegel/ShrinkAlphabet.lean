/-
The order in which the characters of an alphabet shrink.  The ranks of an
alphabet and its members are in one to one correspondence; the order is the
declared one unless a member above 'Z' is taken for 'Z' itself and so overtakes
the members below '0'.
-/
import Hegel.IntervalAlgebra

namespace Hegel

namespace IntervalSet

section Positions

variable (s : IntervalSet)

/-- The member at a position below the size. -/
def member (i : Nat) : Nat :=
  (s.get i).getD 0

/-- All members in ascending order. -/
def members : List Nat :=
  (List.range s.len).map s.member

/-- All members by their rank. -/
def shrinkOrder : List Nat :=
  (List.range s.len).map s.charInShrinkOrder

/-- '0' up to 'Z', then downwards below '0', then everything above 'Z'. -/
def declaredOrder : List Nat :=
  s.members.filter (fun c => decide (48 ≤ c ∧ c ≤ 90)) ++
    (s.members.filter fun c => decide (c < 48)).reverse ++
    s.members.filter fun c => decide (90 < c)

theorem get_member {i : Nat} (hi : i < s.len) : s.get i = some (s.member i) := by
  obtain ⟨n, hget, -⟩ := s.index_get hi
  rw [member, hget]
  rfl

theorem contains_member {i : Nat} (hi : i < s.len) :
    s.contains (s.member i) = true := by
  obtain ⟨n, hget, hcontains, -⟩ := s.index_get hi
  rw [member, hget]
  exact hcontains

theorem member_lt_iff {i : Nat} (hi : i < s.len) (value : Nat) :
    s.member i < value ↔ i < s.indexAbove value :=
  (s.lt_indexAbove_iff (s.get_member hi) value).symm

theorem member_inj {i j : Nat} (hi : i < s.len) (hj : j < s.len)
    (heq : s.member i = s.member j) : i = j := by
  obtain ⟨n, hget, -, hindex⟩ := s.index_get hi
  obtain ⟨n', hget', -, hindex'⟩ := s.index_get hj
  rw [member, member, hget, hget'] at heq
  rw [show n = n' from heq, hindex'] at hindex
  exact (Option.some.inj hindex).symm

theorem exists_member {n : Nat} (hcontains : s.contains n = true) :
    ∃ i < s.len, s.member i = n := by
  obtain ⟨i, hi, -, hget⟩ := s.get_index hcontains
  refine ⟨i, hi, ?_⟩
  rw [member, hget]
  rfl

/-- The position that a rank stands for in the declared order, where `a`
members lie below '0' and `b` members up to 'Z'. -/
def declaredPosition (a b i : Nat) : Nat :=
  if i < b - a then a + i else if i < b then b - 1 - i else i

theorem map_declaredPosition {a b len : Nat} (hab : a ≤ b) (hb : b ≤ len) :
    (List.range len).map (declaredPosition a b) =
      List.range' a (b - a) ++ (List.range a).reverse ++
        List.range' b (len - b) := by
  apply List.ext_getElem
  · simp only [List.length_map, List.length_range, List.length_append,
      List.length_range', List.length_reverse]
    omega
  · intro i hi hi'
    simp only [List.getElem_map, List.getElem_range, List.getElem_append,
      List.length_append, List.length_range', List.length_reverse,
      List.length_range, List.getElem_range', List.getElem_reverse,
      declaredPosition]
    have hlen : i < len := by simpa using hi
    by_cases hmiddle : i < b - a
    · rw [if_pos hmiddle, dif_pos (show i < b - a + a by omega),
        dif_pos hmiddle]
      omega
    · rw [if_neg hmiddle]
      by_cases hbelow : i < b
      · rw [if_pos hbelow, dif_pos (show i < b - a + a by omega),
          dif_neg hmiddle]
        omega
      · rw [if_neg hbelow, dif_neg (show ¬i < b - a + a by omega)]
        omega

/-- The positions between two bounds. -/
theorem filter_range {lo hi len : Nat} (hlo : lo ≤ hi) (hhi : hi ≤ len) :
    (List.range len).filter (fun i => decide (lo ≤ i ∧ i < hi)) =
      List.range' lo (hi - lo) := by
  have hsplit : List.range len =
      List.range' 0 lo ++ (List.range' lo (hi - lo) ++
        List.range' hi (len - hi)) := by
    have hinner : List.range' lo (hi - lo) ++ List.range' hi (len - hi) =
        List.range' lo (len - lo) := by
      have happend := @List.range'_append_1 lo (hi - lo) (len - hi)
      rw [show lo + (hi - lo) = hi by omega,
        show hi - lo + (len - hi) = len - lo by omega] at happend
      exact happend
    have houter := @List.range'_append_1 0 lo (len - lo)
    rw [Nat.zero_add, show lo + (len - lo) = len by omega] at houter
    rw [hinner, houter, List.range_eq_range']
  have hbelow : (List.range' 0 lo).filter
      (fun i => decide (lo ≤ i ∧ i < hi)) = [] := by
    apply List.filter_eq_nil_iff.mpr
    intro i hmem
    have := List.mem_range'_1.mp hmem
    simp only [decide_eq_true_eq]
    omega
  have hinside : (List.range' lo (hi - lo)).filter
      (fun i => decide (lo ≤ i ∧ i < hi)) = List.range' lo (hi - lo) := by
    apply List.filter_eq_self.mpr
    intro i hmem
    have := List.mem_range'_1.mp hmem
    simp only [decide_eq_true_eq]
    omega
  have habove : (List.range' hi (len - hi)).filter
      (fun i => decide (lo ≤ i ∧ i < hi)) = [] := by
    apply List.filter_eq_nil_iff.mpr
    intro i hmem
    have := List.mem_range'_1.mp hmem
    simp only [decide_eq_true_eq]
    omega
  rw [hsplit, List.filter_append, List.filter_append, hbelow, hinside, habove,
    List.nil_append, List.append_nil]

/-- Members are filtered by their positions. -/
theorem filter_members {p : Nat → Bool} {lo hi : Nat} (hlo : lo ≤ hi)
    (hhi : hi ≤ s.len)
    (hp : ∀ i < s.len, p (s.member i) = decide (lo ≤ i ∧ i < hi)) :
    s.members.filter p = (List.range' lo (hi - lo)).map s.member := by
  rw [members, List.filter_map, ← filter_range hlo hhi]
  congr 1
  apply List.filter_congr
  intro i hmem
  exact hp i (List.mem_range.mp hmem)

/-- The declared order, position by position. -/
theorem declaredOrder_eq :
    s.declaredOrder = (List.range s.len).map fun i =>
      s.member (declaredPosition (s.indexAbove 48) (s.indexAbove 91) i) := by
  have hab := s.indexAbove_mono (show 48 ≤ 91 by omega)
  have hb := s.indexAbove_le_len 91
  have hmiddle : s.members.filter (fun c => decide (48 ≤ c ∧ c ≤ 90)) =
      (List.range' (s.indexAbove 48)
        (s.indexAbove 91 - s.indexAbove 48)).map s.member := by
    apply s.filter_members hab hb
    intro i hi
    have hlow := s.member_lt_iff hi 48
    have hhigh := s.member_lt_iff hi 91
    apply decide_eq_decide.mpr
    omega
  have hbelow : s.members.filter (fun c => decide (c < 48)) =
      (List.range (s.indexAbove 48)).map s.member := by
    rw [List.range_eq_range']
    apply s.filter_members (Nat.zero_le _) (hab.trans hb)
    intro i hi
    have hlow := s.member_lt_iff hi 48
    apply decide_eq_decide.mpr
    omega
  have habove : s.members.filter (fun c => decide (90 < c)) =
      (List.range' (s.indexAbove 91) (s.len - s.indexAbove 91)).map
        s.member := by
    apply s.filter_members hb (le_refl _)
    intro i hi
    have hhigh := s.member_lt_iff hi 91
    apply decide_eq_decide.mpr
    omega
  rw [declaredOrder, hmiddle, hbelow, habove, ← List.map_reverse,
    ← List.map_append, ← List.map_append, ← map_declaredPosition hab hb,
    List.map_map]
  rfl

end Positions

section Order

variable (s : IntervalSet)

theorem charInShrinkOrder_eq {i : Nat} (hi : i < s.len) :
    s.charInShrinkOrder i = s.member (s.shrinkPosition i).toNat := by
  obtain ⟨hlow, -⟩ := s.shrinkPosition_lt_len hi
  rw [charInShrinkOrder, member, Int.toNat_of_nonneg hlow]

theorem declaredPosition_lt {a b len i : Nat} (hab : a ≤ b) (hb : b ≤ len)
    (hi : i < len) : declaredPosition a b i < len := by
  rw [declaredPosition]
  split <;> [skip; split] <;> omega

/-- The orders agree if they agree about every position. -/
theorem shrinkOrder_eq_iff :
    s.shrinkOrder = s.declaredOrder ↔
      ∀ i < s.len, s.shrinkPosition i =
        declaredPosition (s.indexAbove 48) (s.indexAbove 91) i := by
  have hab := s.indexAbove_mono (show 48 ≤ 91 by omega)
  have hb := s.indexAbove_le_len 91
  rw [shrinkOrder, declaredOrder_eq, List.map_inj_left]
  constructor
  · intro h i hi
    have heq := h i (List.mem_range.mpr hi)
    rw [s.charInShrinkOrder_eq hi] at heq
    obtain ⟨hlow, hhigh⟩ := s.shrinkPosition_lt_len hi
    have hsame := s.member_inj (by omega)
      (declaredPosition_lt hab hb hi) heq
    omega
  · intro h i hmem
    have hi := List.mem_range.mp hmem
    rw [s.charInShrinkOrder_eq hi, h i hi, Int.toNat_natCast]

/-- Only 'Z' itself is neither below 'Z' nor above it. -/
theorem indexAbove_succ_le (value : Nat) :
    s.indexAbove (value + 1) ≤ s.indexAbove value + 1 := by
  by_contra hgt
  have hlen := s.indexAbove_le_len (value + 1)
  have hfirst : s.indexAbove value < s.len := by omega
  have hsecond : s.indexAbove value + 1 < s.len := by omega
  have hlow := s.member_lt_iff hfirst value
  have hhigh := s.member_lt_iff hfirst (value + 1)
  have hlow' := s.member_lt_iff hsecond value
  have hhigh' := s.member_lt_iff hsecond (value + 1)
  have hsame := s.member_inj hfirst hsecond (by omega)
  omega

/-- The positions agree unless the pivot is the position of a member above 'Z'
and there are members below '0' to be overtaken. -/
theorem shrinkPosition_eq_iff :
    (∀ i < s.len, s.shrinkPosition i =
      declaredPosition (s.indexAbove 48) (s.indexAbove 91) i) ↔
      s.indexAbove 91 = s.len ∨ s.indexAbove 90 < s.indexAbove 91 ∨
        s.indexAbove 48 = 0 := by
  have hab := s.indexAbove_mono (show 48 ≤ 90 by omega)
  have hbc := s.indexAbove_mono (show 90 ≤ 91 by omega)
  have hlen := s.indexAbove_le_len 91
  have hstep : s.indexAbove 91 ≤ s.indexAbove 90 + 1 :=
    s.indexAbove_succ_le 90
  constructor
  · intro h
    by_contra hbad
    have hrank := h (s.indexAbove 91 - s.indexAbove 48) (by omega)
    rw [shrinkPosition, idxOfZ, idxOfZero, declaredPosition] at hrank
    rw [if_neg (show ¬s.len = 0 by omega), if_pos (by omega),
      if_pos (by omega), if_neg (by omega), if_pos (by omega)] at hrank
    omega
  · intro h i hi
    rw [shrinkPosition, idxOfZ, idxOfZero, declaredPosition,
      if_neg (show ¬s.len = 0 by omega)]
    generalize hpivot : min (s.indexAbove 90) (s.len - 1) = pivot
    simp only []
    split
    · split
      · split
        · omega
        · split <;> omega
      · split
        · omega
        · split <;> omega
    · split
      · omega
      · split <;> omega

theorem indexAbove_eq_len_iff (value : Nat) :
    s.indexAbove value = s.len ↔ ∀ n, s.contains n = true → n < value := by
  constructor
  · intro heq n hcontains
    obtain ⟨i, hi, rfl⟩ := s.exists_member hcontains
    rw [s.member_lt_iff hi, heq]
    exact hi
  · intro h
    by_contra hne
    have hlt := lt_of_le_of_ne (s.indexAbove_le_len value) hne
    have hbelow := h _ (s.contains_member hlt)
    rw [s.member_lt_iff hlt] at hbelow
    omega

theorem indexAbove_eq_zero_iff (value : Nat) :
    s.indexAbove value = 0 ↔ ∀ n, s.contains n = true → value ≤ n := by
  constructor
  · intro heq n hcontains
    obtain ⟨i, hi, rfl⟩ := s.exists_member hcontains
    have hiff := s.member_lt_iff hi value
    omega
  · intro h
    by_contra hne
    have hlen := s.indexAbove_le_len value
    have hpos : 0 < s.len := by omega
    have hiff := s.member_lt_iff hpos value
    have hle := h _ (s.contains_member hpos)
    omega

theorem indexAbove_lt_succ_iff (value : Nat) :
    s.indexAbove value < s.indexAbove (value + 1) ↔
      s.contains value = true := by
  constructor
  · intro hlt
    have hlen := s.indexAbove_le_len (value + 1)
    have hpos : s.indexAbove value < s.len := by omega
    have hlow := s.member_lt_iff hpos value
    have hhigh := s.member_lt_iff hpos (value + 1)
    have heq : s.member (s.indexAbove value) = value := by omega
    rw [← heq]
    exact s.contains_member hpos
  · intro hcontains
    obtain ⟨i, hi, heq⟩ := s.exists_member hcontains
    have hlow := s.member_lt_iff hi value
    have hhigh := s.member_lt_iff hi (value + 1)
    omega

/-- Whether no member above 'Z' is taken for 'Z' ahead of members below
'0'. -/
def ZInPlace : Prop :=
  s.contains 90 = true ∨ (∀ n, s.contains n = true → n ≤ 90) ∨
    ∀ n, s.contains n = true → 48 ≤ n

/-- What is said of the shrink order: ranks and members are in one to one
correspondence, and the members come in the declared order. -/
structure ShrinksAsDeclared : Prop where
  contains : ∀ i < s.len, s.contains (s.charInShrinkOrder i) = true
  index_char : ∀ i < s.len,
    s.indexFromCodepointInShrinkOrder (s.charInShrinkOrder i) = i
  index_lt : ∀ n, s.contains n = true →
    s.indexFromCodepointInShrinkOrder n < s.len
  char_index : ∀ n, s.contains n = true →
    s.charInShrinkOrder (s.indexFromCodepointInShrinkOrder n) = n
  order : s.shrinkOrder = s.declaredOrder

theorem shrinksAsDeclared_iff_order :
    s.ShrinksAsDeclared ↔ s.shrinkOrder = s.declaredOrder := by
  constructor
  · exact ShrinksAsDeclared.order
  · intro horder
    exact {
      contains := fun i hi => (s.indexFromCodepoint_charInShrinkOrder hi).1
      index_char := fun i hi => (s.indexFromCodepoint_charInShrinkOrder hi).2
      index_lt := fun n hn => (s.charInShrinkOrder_indexFromCodepoint hn).1
      char_index := fun n hn => (s.charInShrinkOrder_indexFromCodepoint hn).2
      order := horder }

end Order

end IntervalSet

namespace Alphabet

/-- The characters of an alphabet shrink in the declared order exactly if no
member above 'Z' is taken for 'Z' ahead of members below '0'. -/
theorem shrinksAsDeclared_iff (s : Alphabet) :
    s.ShrinksAsDeclared ↔ s.ZInPlace := by
  rw [IntervalSet.shrinksAsDeclared_iff_order, IntervalSet.shrinkOrder_eq_iff,
    IntervalSet.shrinkPosition_eq_iff, IntervalSet.indexAbove_eq_len_iff,
    IntervalSet.indexAbove_lt_succ_iff, IntervalSet.indexAbove_eq_zero_iff,
    IntervalSet.ZInPlace]
  simp only [Nat.lt_succ_iff]
  tauto

/-- The blank and 'a'. -/
def blankAndA : Alphabet where
  intervals := [(32, 32), (97, 97)]
  ordered := by decide
  inhabited := by decide
  bounded := by decide
  characters := by decide

/-- Without 'Z', 'a' comes before the blank. -/
theorem shrinkOrder_blankAndA :
    blankAndA.shrinkOrder = [97, 32] ∧ blankAndA.declaredOrder = [32, 97] ∧
      ¬blankAndA.ShrinksAsDeclared := by
  have horder : blankAndA.shrinkOrder = [97, 32] := by decide
  have hdeclared : blankAndA.declaredOrder = [32, 97] := by decide
  refine ⟨horder, hdeclared, fun h => ?_⟩
  have heq := h.order
  rw [horder, hdeclared] at heq
  cases heq

end Alphabet

end Hegel
