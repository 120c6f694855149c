/-
What simplest means for floats.  In a range it is the least index, in a
constraint the least rank; and the rank orders what is a number in the same way
as the sort key.
-/
import Hegel.FloatRank

namespace Hegel

open Binary64

section Range

variable {lo hi v w : Binary64}

theorem le_parts (hle : v.le w = true) :
    v.isNan = false ∧ w.isNan = false ∧ v.orderKey ≤ w.orderKey := by
  rw [Binary64.le, Bool.and_eq_true, Bool.and_eq_true, decide_eq_true_eq,
    Bool.not_eq_true', Bool.not_eq_true'] at hle
  exact ⟨hle.1.1, hle.1.2, hle.2⟩

theorem isNan_of_isFinite (hv : v.isFinite = true) : v.isNan = false := by
  rw [isFinite, decide_eq_true_eq] at hv
  rw [isNan, decide_eq_false_iff_not]
  omega

/-- A value from zero on is compared by its bits. -/
theorem le_iff_bits (hv : v.isNan = false) (hw : w.isNan = false)
    (hsign : v.isSignNegative = false) (hpos : 0 < v.bits) :
    v.le w = true ↔ w.isSignNegative = false ∧ v.bits ≤ w.bits := by
  rw [le_iff hv hw, orderKey_of_sign hsign]
  constructor
  · intro hle
    have hwSign := sign_of_orderKey_pos (v := w) (by omega)
    rw [orderKey_of_sign hwSign] at hle
    exact ⟨hwSign, by omega⟩
  · rintro ⟨hwSign, hle⟩
    rw [orderKey_of_sign hwSign]
    omega

/-- The range that the minimiser is given. -/
theorem positiveRange_of_le (hpos : Binary64.zero.lt lo = true)
    (hle : lo.le hi = true) (hfinite : hi.isFinite = true) :
    PositiveRange lo hi ∧ lo.isSignNegative = false ∧
      hi.isSignNegative = false := by
  obtain ⟨hloNan, hhiNan, hkeys⟩ := le_parts hle
  rw [lt_iff (by decide) hloNan, show zero.orderKey = 0 by decide] at hpos
  have hloSign := sign_of_orderKey_pos hpos
  have hhiSign := sign_of_orderKey_pos (v := hi) (by omega)
  rw [orderKey_of_sign hloSign] at hpos hkeys
  rw [orderKey_of_sign hhiSign] at hkeys
  rw [isFinite, decide_eq_true_eq, magnitude_of_nonneg
    ((isSignNegative_eq_false_iff hi).mp hhiSign)] at hfinite
  exact ⟨⟨by omega, by omega, hfinite⟩, hloSign, hhiSign⟩

/-- Between two positive finite floats the answer has the least index of all
floats. -/
theorem simplestInRange_least (lo hi : Binary64)
    (hpos : Binary64.zero.lt lo = true) (hle : lo.le hi = true)
    (hfinite : hi.isFinite = true) :
    lo.le (simplestInRange lo hi) = true ∧
      (simplestInRange lo hi).le hi = true ∧
      ∀ w, lo.le w = true → w.le hi = true →
        floatToIndex (simplestInRange lo hi) ≤ floatToIndex w := by
  obtain ⟨hrange, hloSign, hhiSign⟩ := positiveRange_of_le hpos hle hfinite
  obtain ⟨hloNan, hhiNan, -⟩ := le_parts hle
  have hloPos := hrange.pos
  have hsimplest := isSimplestIn_simplestInRange hrange
  generalize simplestInRange lo hi = v at hsimplest ⊢
  have hvNan : v.isNan = false := by
    have hle := hsimplest.le
    have hbits := hrange.finite
    rw [isNan, magnitude_of_nonneg
      ((isSignNegative_eq_false_iff v).mp hsimplest.sign),
      decide_eq_false_iff_not]
    omega
  have hvPos : 0 < v.bits := lt_of_lt_of_le hloPos hsimplest.ge
  refine ⟨?_, ?_, ?_⟩
  · exact (le_iff_bits hloNan hvNan hloSign hloPos).mpr
      ⟨hsimplest.sign, hsimplest.ge⟩
  · exact (le_iff_bits hvNan hhiNan hsimplest.sign hvPos).mpr
      ⟨hhiSign, hsimplest.le⟩
  · intro w hge hle
    obtain ⟨-, hwNan, -⟩ := le_parts hge
    obtain ⟨hwSign, hwGe⟩ :=
      (le_iff_bits hloNan hwNan hloSign hloPos).mp hge
    have hwLe := (le_iff_bits hwNan hhiNan hwSign
      (lt_of_lt_of_le hloPos hwGe)).mp hle
    exact hsimplest.minimal w hwSign hwGe hwLe.2

/-- Between 0.7 and 0.8 the simplest float is 0.75. -/
theorem simplestInRange_least_quarters :
    let lo : Binary64 := ofBits 4604480259023595110
    let hi : Binary64 := ofBits 4605380978949069210
    simplestInRange lo hi = ofBits 4604930618986332160 ∧
      lo.le (simplestInRange lo hi) = true ∧
      (simplestInRange lo hi).le hi = true ∧
      ∀ w, lo.le w = true → w.le hi = true →
        floatToIndex (simplestInRange lo hi) ≤ floatToIndex w := by
  intro lo hi
  refine ⟨by decide +kernel, ?_⟩
  exact simplestInRange_least lo hi (by decide +kernel) (by decide +kernel)
    (by decide +kernel)

end Range

section Choice

variable {v w : Binary64}

/-- The magnitude of a number, which its index is taken of. -/
theorem sortKey_eq (fc : FloatChoice) (hv : v.isNan = false) :
    fc.sortKey v = (floatToIndex v.abs, v.isSignNegative) := by
  have hmag : (if v.isSignNegative = true then v.neg else v) = v.abs := by
    cases hsign : v.isSignNegative with
    | false =>
        rw [isSignNegative_eq_false_iff] at hsign
        exact ext_bits (by
          rw [bits_abs, magnitude_of_nonneg hsign]
          rfl)
    | true =>
        rw [isSignNegative, decide_eq_true_eq] at hsign
        exact ext_bits (by
          rw [bits_abs, magnitude_of_neg hsign]
          exact bits_neg_of_neg hsign)
  rw [FloatChoice.sortKey, hv]
  simp only [Bool.false_eq_true, if_false]
  rw [hmag]

/-- The rank of a number is made of its index and its side. -/
theorem rank_number (hv : v.isNan = false) :
    floatGlobalRank v =
      floatToIndex v.abs * 2 + v.isSignNegative.toNat := by
  rcases FloatChoice.float_cases v with hnan | rfl | rfl | rfl | rfl | hpos | hneg
  · rw [hv] at hnan
    cases hnan
  · decide +kernel
  · decide +kernel
  · decide +kernel
  · decide +kernel
  · rw [FloatChoice.rank_positive hpos, hpos.abs, hpos.sign]
    rfl
  · have hsign := hneg.sign
    rw [isSignNegative_neg, Bool.not_eq_false'] at hsign
    rw [FloatChoice.rank_negative hneg, ← abs_neg v, hneg.abs, hsign]
    rfl

/-- Among numbers the sort key orders like the rank. -/
theorem keyLt_sortKey_iff (fc : FloatChoice) (hv : v.isNan = false)
    (hw : w.isNan = false) :
    FloatChoice.keyLt (fc.sortKey v) (fc.sortKey w) = true ↔
      floatGlobalRank v < floatGlobalRank w := by
  rw [sortKey_eq fc hv, sortKey_eq fc hw, rank_number hv, rank_number hw,
    FloatChoice.keyLt, Bool.or_eq_true, Bool.and_eq_true, Bool.and_eq_true,
    decide_eq_true_eq, decide_eq_true_eq]
  cases v.isSignNegative <;> cases w.isSignNegative <;> simp <;> omega

theorem sortKey_eq_iff (fc : FloatChoice) (hv : v.isNan = false)
    (hw : w.isNan = false) :
    fc.sortKey v = fc.sortKey w ↔
      floatGlobalRank v = floatGlobalRank w := by
  rw [sortKey_eq fc hv, sortKey_eq fc hw, rank_number hv, rank_number hw,
    Prod.mk.injEq]
  cases v.isSignNegative <;> cases w.isSignNegative <;> simp <;> omega

/-- A constraint that admits something has a simplest value, which is admitted
and of least rank, so that every index is a difference of ranks; and the sort
keys of admitted numbers order like their ranks. -/
theorem floatChoice_simplest_least (fc : FloatChoice)
    (hadmits : ∃ w, fc.validate w = true) :
    (∃ s, fc.simplest = .ok s ∧ fc.validate s = true ∧
      ∀ v, fc.validate v = true → floatGlobalRank s ≤ floatGlobalRank v ∧
        fc.toIndex v = .ok (floatGlobalRank v - floatGlobalRank s)) ∧
    ∀ v w, fc.validate v = true → fc.validate w = true →
      v.isNan = false → w.isNan = false →
        (FloatChoice.keyLt (fc.sortKey v) (fc.sortKey w) = true ↔
          floatGlobalRank v < floatGlobalRank w) ∧
        (fc.sortKey v = fc.sortKey w ↔
          floatGlobalRank v = floatGlobalRank w) := by
  constructor
  · obtain ⟨w, hw⟩ := hadmits
    obtain ⟨s, hs⟩ := fc.simplest_total hw
    obtain ⟨hvalid, hleast⟩ := FloatChoice.simplest_spec hs
    refine ⟨s, hs, hvalid, fun v hv => ⟨hleast v hv, ?_⟩⟩
    rw [FloatChoice.toIndex, hs]
    rfl
  · intro v w _ _ hvNan hwNan
    exact ⟨keyLt_sortKey_iff fc hvNan hwNan, sortKey_eq_iff fc hvNan hwNan⟩

/-- Only the negative zero and the values below it are admitted, down to minus
one and a half, where fractions must exceed one half. -/
def belowZero : FloatChoice where
  minValue := ofBits 13832806255468478464
  maxValue := .negZero
  allowNan := false
  allowInfinity := false
  smallestNonzeroMagnitude := ofBits 4602678819172646912
  minValue_number := by decide
  maxValue_number := by decide

theorem floatChoice_simplest_least_below :
    (∃ s, belowZero.simplest = .ok s ∧ belowZero.validate s = true ∧
      ∀ v, belowZero.validate v = true →
        floatGlobalRank s ≤ floatGlobalRank v ∧
          belowZero.toIndex v =
            .ok (floatGlobalRank v - floatGlobalRank s)) ∧
    ∀ v w, belowZero.validate v = true → belowZero.validate w = true →
      v.isNan = false → w.isNan = false →
        (FloatChoice.keyLt (belowZero.sortKey v) (belowZero.sortKey w) = true ↔
          floatGlobalRank v < floatGlobalRank w) ∧
        (belowZero.sortKey v = belowZero.sortKey w ↔
          floatGlobalRank v = floatGlobalRank w) :=
  floatChoice_simplest_least belowZero ⟨.negZero, by decide +kernel⟩

end Choice

end Hegel
