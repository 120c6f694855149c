/-
The index of a non-negative float determines it.  A simple value is read back
as the integer it is; a tagged index keeps the rank of the exponent and the
reordered fraction in separate fields, and both reorderings are undone.
-/
import Hegel.FloatCode

namespace Hegel

open Binary64

variable {v w : Binary64}

/-- A simple value's index is the integer it denotes. -/
theorem floatToIndex_lt_of_isSimpleFloat (hsimple : isSimpleFloat v = true) :
    floatToIndex v < 2 ^ 56 := by
  rw [floatToIndex, if_pos hsimple]
  rw [isSimpleFloat] at hsimple
  split at hsimple
  · exact absurd hsimple (by decide)
  · exact of_decide_eq_true (Bool.and_eq_true _ _ ▸ hsimple).2

/-- Every other index carries the tag. -/
theorem le_floatToIndex_of_not_isSimpleFloat
    (hsimple : isSimpleFloat v = false) : 2 ^ 63 ≤ floatToIndex v := by
  rw [floatToIndex, hsimple]
  simp only [Bool.false_eq_true, if_false]
  exact Nat.left_le_or.trans Nat.left_le_or

theorem indexToFloat_ofSimple (hsimple : isSimpleFloat v = true) :
    indexToFloat (floatToIndex v) = v := by
  have hlt := floatToIndex_lt_of_isSimpleFloat hsimple
  have hdomain : v.isSignNegative = false ∧ v.isFinite = true := by
    rw [isSimpleFloat] at hsimple
    split at hsimple
    · exact absurd hsimple (by decide)
    · rename_i hguard
      simpa using hguard
  obtain ⟨n, hn, hulps⟩ :=
    (isSimpleFloat_iff hdomain.1 hdomain.2).mp hsimple
  have hindex := floatToIndex_simple hdomain.1 hdomain.2 hn hulps
  rw [hindex, indexToFloat, if_pos (by omega), Nat.mod_eq_of_lt hn]
  exact ofNat_of_ulps hdomain.1 (by omega) hulps

/-- Both fields of a tagged index are read back. -/
theorem indexToFloat_taggedIndex {biasedExp fraction : Nat}
    (hexponent : biasedExp < 2 ^ 11) (hfraction : fraction < 2 ^ 52) :
    indexToFloat (taggedIndex biasedExp fraction) =
      ofBits (biasedExp * 2 ^ 52 + fraction) := by
  have hrank := encodeExponent_lt hexponent
  have hcode := mantissaCode_lt biasedExp hfraction
  have htag : taggedIndex biasedExp fraction / 2 ^ 63 ≠ 0 := by
    rw [taggedIndex]
    omega
  have hfield : taggedIndex biasedExp fraction / 2 ^ 52 % 2 ^ 11 =
      encodeExponent biasedExp := by
    rw [taggedIndex]
    omega
  have hlow : taggedIndex biasedExp fraction % 2 ^ 52 =
      mantissaCode biasedExp fraction := by
    rw [taggedIndex]
    omega
  have hrestore := mantissaCode_mantissaCode biasedExp hfraction
  rw [indexToFloat, if_neg htag]
  simp only [hfield, hlow, decodeExponent_encodeExponent hexponent]
  change ofBits (_ ||| mantissaCode biasedExp _) = _
  rw [hrestore, or_of_lt hfraction]

/-- The index of a value with a clear sign determines its bits, infinity and
the subnormal ones included, and the simple values come before all others. -/
theorem floatToIndex_injective_and_ordered :
    (∀ v : Binary64, v.isSignNegative = false →
      indexToFloat (floatToIndex v) = v) ∧
    (∀ v w : Binary64, isSimpleFloat v = true → isSimpleFloat w = false →
      floatToIndex v < floatToIndex w) := by
  constructor
  · intro v hsign
    by_cases hsimple : isSimpleFloat v = true
    · exact indexToFloat_ofSimple hsimple
    · rw [Bool.not_eq_true] at hsimple
      rw [floatToIndex_tagged hsign hsimple,
        indexToFloat_taggedIndex (biasedExponent_lt v) v.fraction_lt,
        ← bits_eq hsign, ofBits_bits]
  · intro v w hv hw
    have hsmall := floatToIndex_lt_of_isSimpleFloat hv
    have htagged := le_floatToIndex_of_not_isSimpleFloat hw
    omega

/-- The infinite value and the least subnormal one are read back, and the
integers from 53 significant bits on are still their own index. -/
theorem floatToIndex_injective_and_ordered_sample :
    indexToFloat (floatToIndex (ofBits (2047 * 2 ^ 52))) =
        ofBits (2047 * 2 ^ 52) ∧
      indexToFloat (floatToIndex (ofBits 1)) = ofBits 1 ∧
      floatToIndex (ofNat (2 ^ 56 - 8)) < floatToIndex (ofNat (2 ^ 56)) :=
  ⟨floatToIndex_injective_and_ordered.1 _ (by decide),
    floatToIndex_injective_and_ordered.1 _ (by decide),
    floatToIndex_injective_and_ordered.2 _ _ (by decide +kernel)
      (by decide +kernel)⟩

end Hegel
