/-
Codepoint alphabets.  An alphabet is a sorted list of disjoint inclusive
intervals read as one increasing sequence of codepoints; positions are found
through the running offsets of the intervals, and a second numbering of the
same positions puts '0' first for the shrinker.
-/
import Mathlib.Data.List.Basic
import Mathlib.Tactic.IntervalCases

namespace Hegel

/-- A sorted, disjoint set of codepoint intervals, inclusive on both ends. -/
structure IntervalSet where
  intervals : List (Nat × Nat)
  ordered : intervals.Pairwise fun a b => a.2 < b.1
  inhabited : ∀ interval ∈ intervals, interval.1 ≤ interval.2
  bounded : ∀ interval ∈ intervals, interval.2 ≤ 0x10FFFF
deriving DecidableEq

/-- A set to draw from.  The engine never produces surrogates, so every member
is a character. -/
structure Alphabet extends IntervalSet where
  characters : ∀ interval ∈ intervals,
    interval.2 < 0xD800 ∨ 0xDFFF < interval.1
deriving DecidableEq

namespace IntervalSet

/-- Running totals of the interval widths, the last one being the size. -/
def offsetsFrom (last : Nat) : List (Nat × Nat) → List Nat
  | [] => [last]
  | (u, v) :: rest => last :: offsetsFrom (last + (v - u + 1)) rest

/-- The `j`-th running total; the source keeps the last one as `size`. -/
def offset (s : IntervalSet) (j : Nat) : Nat :=
  (offsetsFrom 0 s.intervals).getD j 0

/-- The `j`-th interval. -/
def interval (s : IntervalSet) (j : Nat) : Nat × Nat :=
  s.intervals.getD j (0, 0)

/-- How many codepoints the set holds. -/
def len (s : IntervalSet) : Nat :=
  s.offset s.intervals.length

def isEmpty (s : IntervalSet) : Bool :=
  s.len == 0

/-- Bisection between a position that is kept and one that is not. -/
def bisect (kept : Nat → Bool) : Nat → Nat → Nat → Nat
  | 0, lo, _ => lo
  | fuel + 1, lo, hi =>
      if lo + 1 < hi then
        let mid := lo + (hi - lo) / 2
        if kept mid then bisect kept fuel mid hi else bisect kept fuel lo mid
      else lo

/-- Codepoint at position `i`, accepting negative positions from the end. -/
def get (s : IntervalSet) (i : Int) : Option Nat :=
  let resolved := if i < 0 then s.len + i else i
  if resolved < 0 ∨ resolved ≥ s.len then none
  else
    let i := resolved.toNat
    let last := s.intervals.length - 1
    let j :=
      if s.offset last > i then
        bisect (fun mid => decide (s.offset mid ≤ i)) last 0 last
      else last
    some ((s.interval j).1 + (i - s.offset j))

/-- How many intervals start at or below a codepoint. -/
def partitionPoint (s : IntervalSet) (elem : Nat) : Nat :=
  s.intervals.findIdx fun interval => decide (elem < interval.1)

/-- The last interval starting at or below a codepoint. -/
def intervalFor (s : IntervalSet) (elem : Nat) : Option Nat :=
  match s.partitionPoint elem with
  | 0 => none
  | j + 1 => some j

def contains (s : IntervalSet) (elem : Nat) : Bool :=
  match s.intervalFor elem with
  | some j => decide (elem ≤ (s.interval j).2)
  | none => false

/-- Position of a codepoint, if it is present. -/
def index (s : IntervalSet) (value : Nat) : Option Nat :=
  match s.intervalFor value with
  | some j =>
      let (u, v) := s.interval j
      if value ≤ v then some (s.offset j + (value - u)) else none
  | none => none

/-- Smallest position holding at least `value`, or the size. -/
def indexAbove (s : IntervalSet) (value : Nat) : Nat :=
  match s.intervalFor value with
  | some j =>
      let (u, v) := s.interval j
      if value ≤ v then s.offset j + (value - u)
      else if j + 1 < s.intervals.length then s.offset (j + 1)
      else s.len
  | none => 0

/-- Position of '0', or of the first codepoint above it. -/
def idxOfZero (s : IntervalSet) : Int :=
  s.indexAbove 48

/-- Position of 'Z', or of the first codepoint above it. -/
def idxOfZ (s : IntervalSet) : Int :=
  if s.len = 0 then -1 else (min (s.indexAbove 90) (s.len - 1) : Nat)

/-- The position a shrink-order rank stands for: '0' up to 'Z', then downwards
below '0', then everything above 'Z'. -/
def shrinkPosition (s : IntervalSet) (i : Nat) : Int :=
  if (i : Int) ≤ s.idxOfZ then
    let n := s.idxOfZ - s.idxOfZero
    if (i : Int) ≤ n then i + s.idxOfZero else s.idxOfZero - (i - n)
  else i

/-- Codepoint at a shrink-order rank; the source panics outside the set. -/
def charInShrinkOrder (s : IntervalSet) (i : Nat) : Nat :=
  (s.get (s.shrinkPosition i)).getD 0

/-- Rank of a codepoint; the source panics outside the set. -/
def indexFromCodepointInShrinkOrder (s : IntervalSet) (cp : Nat) : Nat :=
  let i : Int := ((s.index cp).getD 0 : Nat)
  let rank :=
    if i ≤ s.idxOfZ then
      let n := s.idxOfZ - s.idxOfZero
      if s.idxOfZero ≤ i ∧ i ≤ s.idxOfZ then i - s.idxOfZero
      else s.idxOfZero - i + n
    else i
  rank.toNat

section Offsets

theorem offsetsFrom_getD_zero (last : Nat) (intervals : List (Nat × Nat)) :
    (offsetsFrom last intervals).getD 0 0 = last := by
  cases intervals <;> rfl

theorem offsetsFrom_getD_succ (last : Nat) (intervals : List (Nat × Nat))
    {j : Nat} (hj : j < intervals.length) :
    (offsetsFrom last intervals).getD (j + 1) 0 =
      (offsetsFrom last intervals).getD j 0 +
        ((intervals.getD j (0, 0)).2 - (intervals.getD j (0, 0)).1 + 1) := by
  induction intervals generalizing last j with
  | nil => simp at hj
  | cons head rest ih =>
      obtain ⟨u, v⟩ := head
      cases j with
      | zero =>
          rw [offsetsFrom, List.getD_cons_succ, offsetsFrom_getD_zero]
          rfl
      | succ j =>
          rw [offsetsFrom, List.getD_cons_succ, List.getD_cons_succ,
            List.getD_cons_succ]
          exact ih (last + (v - u + 1)) (by simpa using hj)

@[simp] theorem offset_zero (s : IntervalSet) : s.offset 0 = 0 :=
  offsetsFrom_getD_zero 0 s.intervals

theorem offset_succ (s : IntervalSet) {j : Nat} (hj : j < s.intervals.length) :
    s.offset (j + 1) =
      s.offset j + ((s.interval j).2 - (s.interval j).1 + 1) :=
  offsetsFrom_getD_succ 0 s.intervals hj

theorem offset_mono (s : IntervalSet) {j k : Nat} (hjk : j ≤ k)
    (hk : k ≤ s.intervals.length) : s.offset j ≤ s.offset k := by
  induction hjk with
  | refl => exact Nat.le_refl _
  | step _ ih =>
      rw [offset_succ s hk]
      have hle := ih (Nat.le_of_succ_le hk)
      omega

theorem interval_eq_getElem (s : IntervalSet) {j : Nat}
    (hj : j < s.intervals.length) : s.interval j = s.intervals[j] := by
  rw [interval, List.getD_eq_getElem?_getD, List.getElem?_eq_getElem hj]
  rfl

theorem interval_mem (s : IntervalSet) {j : Nat}
    (hj : j < s.intervals.length) : s.interval j ∈ s.intervals := by
  rw [interval_eq_getElem s hj]
  exact List.getElem_mem hj

theorem interval_le (s : IntervalSet) {j : Nat}
    (hj : j < s.intervals.length) : (s.interval j).1 ≤ (s.interval j).2 :=
  s.inhabited _ (s.interval_mem hj)

theorem interval_lt (s : IntervalSet) {j k : Nat} (hjk : j < k)
    (hk : k < s.intervals.length) : (s.interval j).2 < (s.interval k).1 := by
  have hj := Nat.lt_trans hjk hk
  rw [interval_eq_getElem s hj, interval_eq_getElem s hk]
  exact List.pairwise_iff_getElem.mp s.ordered j k hj hk hjk

/-- The intervals cover the positions without overlap. -/
theorem interval_unique (s : IntervalSet) {i j k : Nat}
    (hj : j < s.intervals.length) (hk : k < s.intervals.length)
    (hij : s.offset j ≤ i) (hij' : i < s.offset (j + 1))
    (hik : s.offset k ≤ i) (hik' : i < s.offset (k + 1)) : j = k := by
  rcases Nat.lt_trichotomy j k with hlt | heq | hgt
  · have hmono := s.offset_mono (show j + 1 ≤ k from hlt) hk.le
    omega
  · exact heq
  · have hmono := s.offset_mono (show k + 1 ≤ j from hgt) hj.le
    omega

end Offsets

section Lookup

/-- Bisection ends between a kept position and one that is not. -/
theorem bisect_spec (kept : Nat → Bool) {fuel lo hi : Nat} (hlt : lo < hi)
    (hfuel : hi - lo ≤ fuel) (hlo : kept lo = true) (hhi : kept hi = false) :
    lo ≤ bisect kept fuel lo hi ∧ bisect kept fuel lo hi < hi ∧
      kept (bisect kept fuel lo hi) = true ∧
      kept (bisect kept fuel lo hi + 1) = false := by
  induction fuel generalizing lo hi with
  | zero => omega
  | succ fuel ih =>
      rw [bisect]
      split
      case isTrue hgap =>
        simp only []
        split
        case isTrue hmid =>
          have hih := ih (show lo + (hi - lo) / 2 < hi by omega)
            (by omega) hmid hhi
          exact ⟨by omega, hih.2⟩
        case isFalse hmid =>
          have hih := ih (show lo < lo + (hi - lo) / 2 by omega)
            (by omega) hlo (by simpa using hmid)
          exact ⟨hih.1, by omega, hih.2.2⟩
      case isFalse hgap =>
        have hhi' : hi = lo + 1 := by omega
        exact ⟨Nat.le_refl _, hlt, hlo, by rwa [← hhi']⟩

/-- Every position lies in one interval. -/
theorem exists_interval_of_lt_len (s : IntervalSet) {i : Nat}
    (hi : i < s.len) :
    ∃ j < s.intervals.length, s.offset j ≤ i ∧ i < s.offset (j + 1) := by
  have hsearch : ∀ bound ≤ s.intervals.length, i < s.offset bound →
      ∃ j < bound, s.offset j ≤ i ∧ i < s.offset (j + 1) := by
    intro bound
    induction bound with
    | zero => simp
    | succ bound ih =>
        intro hbound hi
        rcases Nat.lt_or_ge i (s.offset bound) with hlow | hhigh
        · obtain ⟨j, hj, hbounds⟩ := ih (Nat.le_of_succ_le hbound) hlow
          exact ⟨j, Nat.lt_succ_of_lt hj, hbounds⟩
        · exact ⟨bound, Nat.lt_succ_self bound, hhigh, hi⟩
  exact hsearch s.intervals.length (Nat.le_refl _) hi

/-- Reading a position picks the interval around it. -/
theorem get_of_interval (s : IntervalSet) {i j : Nat}
    (hj : j < s.intervals.length) (hlow : s.offset j ≤ i)
    (hhigh : i < s.offset (j + 1)) :
    s.get i = some ((s.interval j).1 + (i - s.offset j)) := by
  have hlen : i < s.len :=
    Nat.lt_of_lt_of_le hhigh (s.offset_mono hj (Nat.le_refl _))
  have hresolved : ¬((i : Int) < 0 ∨ (i : Int) ≥ s.len) := by omega
  have hnonneg : ¬(i : Int) < 0 := by omega
  have hlast : s.intervals.length - 1 < s.intervals.length := by omega
  rw [get]
  simp only [if_neg hnonneg, if_neg hresolved, Int.toNat_natCast,
    Option.some.injEq]
  split
  case isTrue habove =>
    have hpos : 0 < s.intervals.length - 1 := by
      rcases Nat.eq_zero_or_pos (s.intervals.length - 1) with hzero | hpos
      · rw [hzero, offset_zero] at habove
        omega
      · exact hpos
    obtain ⟨-, hhi, hkept, hdropped⟩ := bisect_spec
      (fun mid => decide (s.offset mid ≤ i)) hpos
      (show s.intervals.length - 1 - 0 ≤ s.intervals.length - 1 by omega)
      (by simp) (by simpa using habove)
    have hsame := s.interval_unique hj (Nat.lt_trans hhi hlast) hlow hhigh
      (by simpa using hkept) (by simpa using hdropped)
    rw [← hsame]
  case isFalse hbelow =>
    have hsame := s.interval_unique hj hlast hlow hhigh (by omega)
      (by rw [Nat.sub_add_cancel (by omega)]; exact hlen)
    rw [← hsame]

theorem partitionPoint_le (s : IntervalSet) (elem : Nat) :
    s.partitionPoint elem ≤ s.intervals.length :=
  List.findIdx_le_length

theorem interval_le_of_lt_partitionPoint (s : IntervalSet) {elem j : Nat}
    (hj : j < s.partitionPoint elem) : (s.interval j).1 ≤ elem := by
  have hlength := Nat.lt_of_lt_of_le hj (s.partitionPoint_le elem)
  have hstart := List.not_of_lt_findIdx hj
  rw [interval_eq_getElem s hlength]
  simpa using hstart

theorem lt_interval_partitionPoint (s : IntervalSet) {elem : Nat}
    (hfound : s.partitionPoint elem < s.intervals.length) :
    elem < (s.interval (s.partitionPoint elem)).1 := by
  have hstart := List.findIdx_getElem (w := hfound)
  rw [interval_eq_getElem s hfound]
  exact of_decide_eq_true hstart

/-- The search for a codepoint stops at the interval around it. -/
theorem intervalFor_of_mem (s : IntervalSet) {elem j : Nat}
    (hj : j < s.intervals.length) (hlow : (s.interval j).1 ≤ elem)
    (hhigh : elem ≤ (s.interval j).2) : s.intervalFor elem = some j := by
  have hindex : s.partitionPoint elem = j + 1 := by
    rcases Nat.lt_trichotomy (s.partitionPoint elem) (j + 1) with
      hlt | heq | hgt
    · have hfound : s.partitionPoint elem < s.intervals.length := by omega
      have hstart := s.lt_interval_partitionPoint hfound
      rcases Nat.lt_or_eq_of_le (Nat.le_of_lt_succ hlt) with hbefore | hsame
      · have hle := s.interval_le hfound
        have hsep := s.interval_lt hbefore hj
        omega
      · rw [hsame] at hstart
        omega
    · exact heq
    · have hle := s.partitionPoint_le elem
      have hstart := s.interval_le_of_lt_partitionPoint hgt
      have hsep := s.interval_lt (show j < j + 1 by omega)
        (show j + 1 < s.intervals.length by omega)
      omega
  rw [intervalFor, hindex]

theorem intervalFor_eq_some (s : IntervalSet) {elem j : Nat}
    (hfound : s.intervalFor elem = some j) :
    j < s.intervals.length ∧ s.partitionPoint elem = j + 1 ∧
      (s.interval j).1 ≤ elem := by
  rw [intervalFor] at hfound
  split at hfound
  case h_1 => simp at hfound
  case h_2 k hindex =>
    cases hfound
    have hle := s.partitionPoint_le elem
    exact ⟨by omega, hindex, s.interval_le_of_lt_partitionPoint (by omega)⟩

/-- Membership is lying in one of the intervals. -/
theorem contains_iff (s : IntervalSet) (elem : Nat) :
    s.contains elem = true ↔
      ∃ j < s.intervals.length,
        (s.interval j).1 ≤ elem ∧ elem ≤ (s.interval j).2 := by
  refine ⟨fun h => ?_, ?_⟩
  · rw [contains] at h
    split at h
    case h_1 j hfound =>
      obtain ⟨hj, -, hlow⟩ := s.intervalFor_eq_some hfound
      exact ⟨j, hj, hlow, by simpa using h⟩
    case h_2 => simp at h
  · rintro ⟨j, hj, hlow, hhigh⟩
    rw [contains, s.intervalFor_of_mem hj hlow hhigh]
    simpa using hhigh

theorem index_of_mem (s : IntervalSet) {elem j : Nat}
    (hj : j < s.intervals.length) (hlow : (s.interval j).1 ≤ elem)
    (hhigh : elem ≤ (s.interval j).2) :
    s.index elem = some (s.offset j + (elem - (s.interval j).1)) := by
  rw [index, s.intervalFor_of_mem hj hlow hhigh]
  simp only [if_pos hhigh]

/-- A member has a position below the size, and reading it gives the member
back. -/
theorem get_index (s : IntervalSet) {elem : Nat}
    (hmem : s.contains elem = true) :
    ∃ i < s.len, s.index elem = some i ∧ s.get i = some elem := by
  obtain ⟨j, hj, hlow, hhigh⟩ := (s.contains_iff elem).mp hmem
  have hsucc := s.offset_succ hj
  have hend : s.offset j + (elem - (s.interval j).1) < s.offset (j + 1) := by
    omega
  refine ⟨_, Nat.lt_of_lt_of_le hend (s.offset_mono hj (Nat.le_refl _)),
    s.index_of_mem hj hlow hhigh, ?_⟩
  rw [s.get_of_interval hj (Nat.le_add_right _ _) hend,
    Nat.add_sub_cancel_left, Nat.add_sub_cancel' hlow]

/-- Every position below the size reads a member at that position. -/
theorem index_get (s : IntervalSet) {i : Nat} (hi : i < s.len) :
    ∃ elem, s.get i = some elem ∧ s.contains elem = true ∧
      s.index elem = some i := by
  obtain ⟨j, hj, hlow, hhigh⟩ := s.exists_interval_of_lt_len hi
  have hsucc := s.offset_succ hj
  have hle := s.interval_le hj
  have hmemLow : (s.interval j).1 ≤ (s.interval j).1 + (i - s.offset j) :=
    Nat.le_add_right _ _
  have hmemHigh : (s.interval j).1 + (i - s.offset j) ≤
      (s.interval j).2 := by omega
  refine ⟨_, s.get_of_interval hj hlow hhigh,
    (s.contains_iff _).mpr ⟨j, hj, hmemLow, hmemHigh⟩, ?_⟩
  rw [s.index_of_mem hj hmemLow hmemHigh, Nat.add_sub_cancel_left,
    Nat.add_sub_cancel' hlow]

end Lookup

section ShrinkOrder

theorem partitionPoint_mono (s : IntervalSet) {low high : Nat}
    (hle : low ≤ high) : s.partitionPoint low ≤ s.partitionPoint high := by
  by_contra hlt
  have hbelow := s.partitionPoint_le low
  have hlow := s.interval_le_of_lt_partitionPoint (Nat.lt_of_not_le hlt)
  have hhigh := s.lt_interval_partitionPoint
    (show s.partitionPoint high < _ by omega)
  omega

theorem indexAbove_of_partitionPoint_eq_zero (s : IntervalSet) {value : Nat}
    (hzero : s.partitionPoint value = 0) : s.indexAbove value = 0 := by
  rw [indexAbove, intervalFor, hzero]

/-- A value past the end of its interval is counted up to the next one. -/
theorem indexAbove_of_partitionPoint_eq_succ (s : IntervalSet)
    {value j : Nat} (hsucc : s.partitionPoint value = j + 1) :
    s.indexAbove value =
      min (s.offset j + (value - (s.interval j).1)) (s.offset (j + 1)) := by
  have hj : j < s.intervals.length := by
    have hle := s.partitionPoint_le value
    omega
  have hlow := s.interval_le_of_lt_partitionPoint
    (show j < s.partitionPoint value by omega)
  have hle := s.interval_le hj
  have hoffset := s.offset_succ hj
  rw [indexAbove, intervalFor, hsucc]
  simp only []
  split
  case isTrue hinside => omega
  case isFalse houtside =>
    split
    case isTrue hnext => omega
    case isFalse hlast =>
      rw [len, show s.intervals.length = j + 1 by omega]
      omega

/-- Larger codepoints are found no earlier. -/
theorem indexAbove_mono (s : IntervalSet) {low high : Nat}
    (hle : low ≤ high) : s.indexAbove low ≤ s.indexAbove high := by
  have hmono := s.partitionPoint_mono hle
  rcases hlow : s.partitionPoint low with _ | j
  · rw [s.indexAbove_of_partitionPoint_eq_zero hlow]
    exact Nat.zero_le _
  · rcases hhigh : s.partitionPoint high with _ | k
    · omega
    · rw [s.indexAbove_of_partitionPoint_eq_succ hlow,
        s.indexAbove_of_partitionPoint_eq_succ hhigh]
      have hbound := s.partitionPoint_le high
      rcases Nat.lt_or_ge j k with hlt | hge
      · have hbetween := s.offset_mono (show j + 1 ≤ k from hlt) (by omega)
        have hnext := s.offset_mono (show k ≤ k + 1 by omega) (by omega)
        omega
      · rw [show j = k by omega]
        omega

theorem indexAbove_le_len (s : IntervalSet) (value : Nat) :
    s.indexAbove value ≤ s.len := by
  rcases hpoint : s.partitionPoint value with _ | j
  · rw [s.indexAbove_of_partitionPoint_eq_zero hpoint]
    exact Nat.zero_le _
  · rw [s.indexAbove_of_partitionPoint_eq_succ hpoint]
    have hle := s.partitionPoint_le value
    have hend := s.offset_mono (show j + 1 ≤ _ by omega) (Nat.le_refl _)
    rw [len]
    omega

/-- Where the pivots of the shrink order stand. -/
theorem pivots (s : IntervalSet) :
    0 ≤ s.idxOfZero ∧ s.idxOfZero ≤ s.idxOfZ + 1 ∧ -1 ≤ s.idxOfZ ∧
      s.idxOfZ < s.len := by
  have hmono := s.indexAbove_mono (show 48 ≤ 90 by omega)
  have hzero := s.indexAbove_le_len 48
  rw [idxOfZero, idxOfZ]
  split <;> omega

theorem shrinkPosition_lt_len (s : IntervalSet) {i : Nat} (hi : i < s.len) :
    0 ≤ s.shrinkPosition i ∧ s.shrinkPosition i < s.len := by
  obtain ⟨hzero, hpivots, hneg, hlen⟩ := s.pivots
  rw [shrinkPosition]
  simp only []
  split
  · split <;> omega
  · omega

/-- The rank computed from a position undoes `shrinkPosition`. -/
theorem rank_shrinkPosition (s : IntervalSet) {i position : Nat}
    (hposition : s.shrinkPosition i = position) :
    (if (position : Int) ≤ s.idxOfZ then
      if s.idxOfZero ≤ position ∧ (position : Int) ≤ s.idxOfZ then
        position - s.idxOfZero
      else s.idxOfZero - position + (s.idxOfZ - s.idxOfZero)
    else (position : Int)) = i := by
  obtain ⟨hzero, hpivots, hneg, hlen⟩ := s.pivots
  rw [shrinkPosition] at hposition
  simp only [] at hposition
  split at hposition
  · split at hposition
    · rw [if_pos (by omega), if_pos (by omega)]
      omega
    · rw [if_pos (by omega), if_neg (by omega)]
      omega
  · rw [if_neg (by omega)]
    omega

/-- Every rank below the size names a member of that rank. -/
theorem indexFromCodepoint_charInShrinkOrder (s : IntervalSet) {i : Nat}
    (hi : i < s.len) :
    s.contains (s.charInShrinkOrder i) = true ∧
      s.indexFromCodepointInShrinkOrder (s.charInShrinkOrder i) = i := by
  obtain ⟨hlow, hhigh⟩ := s.shrinkPosition_lt_len hi
  obtain ⟨position, hposition⟩ := Int.eq_ofNat_of_zero_le hlow
  obtain ⟨elem, hget, hmem, hindex⟩ :=
    s.index_get (show position < s.len by omega)
  have hchar : s.charInShrinkOrder i = elem := by
    rw [charInShrinkOrder, hposition, hget]
    rfl
  rw [hchar]
  refine ⟨hmem, ?_⟩
  rw [indexFromCodepointInShrinkOrder, hindex]
  simp only [Option.getD_some]
  rw [s.rank_shrinkPosition hposition, Int.toNat_natCast]

/-- Every member's rank is below the size and names that member. -/
theorem charInShrinkOrder_indexFromCodepoint (s : IntervalSet) {elem : Nat}
    (hmem : s.contains elem = true) :
    s.indexFromCodepointInShrinkOrder elem < s.len ∧
      s.charInShrinkOrder (s.indexFromCodepointInShrinkOrder elem) = elem := by
  obtain ⟨position, hlt, hindex, hget⟩ := s.get_index hmem
  obtain ⟨hzero, hpivots, hneg, hlen⟩ := s.pivots
  have hrank : s.indexFromCodepointInShrinkOrder elem < s.len ∧
      s.shrinkPosition (s.indexFromCodepointInShrinkOrder elem) =
        position := by
    rw [indexFromCodepointInShrinkOrder, hindex]
    simp only [Option.getD_some, shrinkPosition]
    split
    · split
      · refine ⟨by omega, ?_⟩
        rw [if_pos (by omega), if_pos (by omega)]
        omega
      · refine ⟨by omega, ?_⟩
        rw [if_pos (by omega), if_neg (by omega)]
        omega
    · refine ⟨by omega, ?_⟩
      rw [if_neg (by omega)]
      omega
  refine ⟨hrank.1, ?_⟩
  rw [charInShrinkOrder, hrank.2, hget]
  rfl

/-- Codepoints end at `0x10FFFF`, so an alphabet has no more than that many
and one. -/
theorem offset_le (s : IntervalSet) {j : Nat} (hj : j ≤ s.intervals.length) :
    s.offset j ≤ 0x110000 ∧
      ∀ k < s.intervals.length, j ≤ k → s.offset j ≤ (s.interval k).1 := by
  induction j with
  | zero => simp
  | succ j ih =>
      obtain ⟨hle, hbelow⟩ := ih (Nat.le_of_succ_le hj)
      have hstart := hbelow j hj (Nat.le_refl j)
      have hinside := s.interval_le hj
      have hlast := s.bounded _ (s.interval_mem hj)
      rw [s.offset_succ hj]
      refine ⟨by omega, fun k hk hjk => ?_⟩
      have hsep := s.interval_lt (show j < k from hjk) hk
      omega

theorem len_le (s : IntervalSet) : s.len ≤ 0x110000 :=
  (s.offset_le (Nat.le_refl _)).1

theorem le_of_contains (s : IntervalSet) {elem : Nat}
    (hmem : s.contains elem = true) : elem ≤ 0x10FFFF := by
  obtain ⟨j, hj, -, hhigh⟩ := (s.contains_iff elem).mp hmem
  exact hhigh.trans (s.bounded _ (s.interval_mem hj))

end ShrinkOrder

end IntervalSet

end Hegel
