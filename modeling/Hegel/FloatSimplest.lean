/-
The simplest float of a range.  The smallest integer of the range wins if it
is a simple one; otherwise the exponent nearest to one does, and among its
fractions the one with the smallest reversed bits.
-/
import Hegel.FloatCode

namespace Hegel

section MinReversed

variable {lo hi : Nat}

theorem minReversedInRange_bounds (n : Nat) (hle : lo ≤ hi)
    (hlt : hi < 2 ^ n) :
    lo ≤ minReversedInRange lo hi n ∧ minReversedInRange lo hi n ≤ hi := by
  induction n generalizing lo hi with
  | zero =>
      rw [minReversedInRange]
      omega
  | succ n ih =>
      rw [pow_succ] at hlt
      rw [minReversedInRange]
      by_cases heven : (lo + 1) / 2 ≤ hi / 2
      · obtain ⟨hlow, hhigh⟩ := ih heven (by omega)
        simp only [if_pos heven]
        omega
      · simp only [if_neg heven]
        omega

theorem minReversedInRange_lt (n : Nat) (hlo : lo < 2 ^ n)
    (hhi : hi < 2 ^ n) : minReversedInRange lo hi n < 2 ^ n := by
  induction n generalizing lo hi with
  | zero => exact Nat.one_pos
  | succ n ih =>
      rw [minReversedInRange]
      by_cases heven : (lo + 1) / 2 ≤ hi / 2
      · simp only [if_pos heven]
        rw [pow_succ] at hhi ⊢
        have hrest := @ih ((lo + 1) / 2) (hi / 2) (by omega) (by omega)
        omega
      · simp only [if_neg heven]
        exact hlo

/-- No number of the range has smaller reversed bits. -/
theorem reverseBitsN_minReversedInRange_le (n : Nat) {v : Nat}
    (hlo : lo ≤ v) (hhi : v ≤ hi) (hlt : hi < 2 ^ n) :
    reverseBitsN (minReversedInRange lo hi n) n ≤ reverseBitsN v n := by
  induction n generalizing lo hi v with
  | zero => exact Nat.le_refl _
  | succ n ih =>
      rw [pow_succ] at hlt
      rw [minReversedInRange]
      by_cases heven : (lo + 1) / 2 ≤ hi / 2
      · simp only [if_pos heven]
        rw [reverseBitsN, reverseBitsN, Nat.mul_mod_left, Nat.zero_mul,
          Nat.zero_add, Nat.mul_div_cancel _ (by decide)]
        rcases Nat.mod_two_eq_zero_or_one v with hv | hv
        · rw [hv, Nat.zero_mul, Nat.zero_add]
          exact ih (by omega) (by omega) (by omega)
        · have hbest := reverseBitsN_lt
            (minReversedInRange ((lo + 1) / 2) (hi / 2) n) n
          rw [hv]
          omega
      · simp only [if_neg heven]
        rw [show v = lo by omega]

end MinReversed

section Range

open Binary64

/-- A non-negative float of a range that no float of the range precedes. -/
structure IsSimplestIn (lo hi v : Binary64) : Prop where
  sign : v.isSignNegative = false
  ge : lo.bits ≤ v.bits
  le : v.bits ≤ hi.bits
  minimal : ∀ w : Binary64, w.isSignNegative = false → lo.bits ≤ w.bits →
    w.bits ≤ hi.bits → floatToIndex v ≤ floatToIndex w

/-- A range of positive finite floats. -/
structure PositiveRange (lo hi : Binary64) : Prop where
  pos : 0 < lo.bits
  le : lo.bits ≤ hi.bits
  finite : hi.bits < 2047 * 2 ^ 52

variable {lo hi v w : Binary64}

/-- A float between two positive finite ones. -/
structure InRange (lo hi w : Binary64) : Prop where
  ge : lo.bits ≤ w.bits
  le : w.bits ≤ hi.bits

theorem PositiveRange.sign (hrange : PositiveRange lo hi)
    (hw : w.bits ≤ hi.bits) : w.isSignNegative = false := by
  have hfinite := hrange.finite
  rw [isSignNegative_eq_false_iff]
  omega

theorem PositiveRange.isFinite (hrange : PositiveRange lo hi)
    (hw : w.bits ≤ hi.bits) : w.isFinite = true := by
  have hfinite := hrange.finite
  rw [Binary64.isFinite, magnitude_of_nonneg (by omega), decide_eq_true_eq]
  omega

/-- Bits and sizes order positive floats in the same way. -/
theorem bits_le_iff_ulps_le (hv : v.isSignNegative = false)
    (hw : w.isSignNegative = false) : v.bits ≤ w.bits ↔ v.ulps ≤ w.ulps := by
  rw [isSignNegative_eq_false_iff] at hv hw
  rw [ulps_le_ulps_iff, magnitude_of_nonneg hv, magnitude_of_nonneg hw]

theorem le_iff_bits_le (hv : v.isSignNegative = false)
    (hvf : v.isFinite = true) (hw : w.isSignNegative = false)
    (hwf : w.isFinite = true) : v.le w = true ↔ v.bits ≤ w.bits := by
  have hnumber : ∀ x : Binary64, x.isFinite = true → x.isNan = false := by
    intro x hx
    rw [Binary64.isFinite, decide_eq_true_eq] at hx
    rw [isNan, decide_eq_false_iff_not]
    omega
  have hvb := (isSignNegative_eq_false_iff v).mp hv
  have hwb := (isSignNegative_eq_false_iff w).mp hw
  rw [le, hnumber v hvf, hnumber w hwf, orderKey, orderKey, hv, hw,
    magnitude_of_nonneg hvb, magnitude_of_nonneg hwb]
  simp

theorem lt_iff_bits_lt (hv : v.isSignNegative = false)
    (hvf : v.isFinite = true) (hw : w.isSignNegative = false)
    (hwf : w.isFinite = true) : v.lt w = true ↔ v.bits < w.bits := by
  have hnumber : ∀ x : Binary64, x.isFinite = true → x.isNan = false := by
    intro x hx
    rw [Binary64.isFinite, decide_eq_true_eq] at hx
    rw [isNan, decide_eq_false_iff_not]
    omega
  have hvb := (isSignNegative_eq_false_iff v).mp hv
  have hwb := (isSignNegative_eq_false_iff w).mp hw
  rw [lt, hnumber v hvf, hnumber w hwf, orderKey, orderKey, hv, hw,
    magnitude_of_nonneg hvb, magnitude_of_nonneg hwb]
  simp

/-- The index of a float that is not simple has its tag set. -/
theorem le_floatToIndex_of_not_simple (hsign : w.isSignNegative = false)
    (hsimple : isSimpleFloat w = false) : 2 ^ 63 ≤ floatToIndex w := by
  rw [floatToIndex_tagged hsign hsimple, taggedIndex]
  omega

/-- What rounding the lower end up decides. -/
theorem ceil_decides (hrange : PositiveRange lo hi) :
    ∃ n, 0 < n ∧ lo.ulps ≤ n * one ∧ n * one < lo.ulps + one ∧
      lo.ceil.isSignNegative = false ∧ lo.ceil.isFinite = true ∧
      lo.ceil.ulps = n * one ∧
      ((lo.ceil.le hi && lo.ceil.lt (ofNat (2 ^ 56))) = true ↔
        n * one ≤ hi.ulps ∧ n < 2 ^ 56) := by
  have hlo := hrange.sign hrange.le
  have hhi := hrange.sign (Nat.le_refl hi.bits)
  obtain ⟨hsign, hfinite, n, hulps, hle, hlt⟩ :=
    ulps_ceil hlo (hrange.isFinite hrange.le)
  have hbound : (ofNat (2 ^ 56)).ulps = 2 ^ 56 * one := by
    rw [ulps_ofNat (by decide)]
    rw [show roundNat (2 ^ 56) = 2 ^ 56 from
      @roundNat_shift (2 ^ 52) 4 (Nat.le_refl _) (by decide)]
  have hpositive : 0 < lo.ulps := by
    have hzero : zero.ulps < lo.ulps := by
      rw [ulps_lt_ulps_iff, magnitude_of_nonneg
        ((isSignNegative_eq_false_iff lo).mp hlo)]
      exact hrange.pos
    omega
  have hn : 0 < n := by
    by_contra hzero
    rw [show n = 0 by omega, Nat.zero_mul] at hle
    omega
  refine ⟨n, hn, hle, hlt, hsign, hfinite, hulps, ?_⟩
  rw [Bool.and_eq_true, le_iff_bits_le hsign hfinite hhi
    (hrange.isFinite (Nat.le_refl _)),
    lt_iff_bits_lt hsign hfinite (isSignNegative_ofNat (by decide))
      (isFinite_ofNat (by decide)),
    bits_le_iff_ulps_le hsign hhi, ← Nat.not_le,
    bits_le_iff_ulps_le (isSignNegative_ofNat (by decide)) hsign, hbound,
    hulps, Nat.mul_le_mul_right_iff Binary64.one_pos, Nat.not_le]

/-- Without a simple integer in the range, nothing in it is simple. -/
theorem not_simple_of_ceil (hrange : PositiveRange lo hi) {n : Nat}
    (hlt : n * one < lo.ulps + one)
    (hceil : ¬(n * one ≤ hi.ulps ∧ n < 2 ^ 56)) (hw : InRange lo hi w) :
    isSimpleFloat w = false := by
  have hone := Binary64.one_pos
  have hsign := hrange.sign hw.le
  rw [← Bool.not_eq_true, isSimpleFloat_iff hsign (hrange.isFinite hw.le)]
  rintro ⟨k, hk, hulps⟩
  have hlow := (bits_le_iff_ulps_le (hrange.sign hrange.le) hsign).mp hw.ge
  have hhigh := (bits_le_iff_ulps_le hsign
    (hrange.sign (Nat.le_refl _))).mp hw.le
  rw [hulps] at hlow hhigh
  have hnk : n ≤ k := by
    by_contra hgt
    have hmul : (k + 1) * one ≤ n * one := Nat.mul_le_mul_right one (by omega)
    rw [Nat.succ_mul] at hmul
    omega
  have hmul : n * one ≤ k * one := Nat.mul_le_mul_right one hnk
  exact hceil ⟨by omega, by omega⟩

/-- The rounded lower end, if it is simple and in the range. -/
theorem isSimplestIn_ceil (hrange : PositiveRange lo hi)
    (hceil : (lo.ceil.le hi && lo.ceil.lt (ofNat (2 ^ 56))) = true) :
    IsSimplestIn lo hi lo.ceil := by
  obtain ⟨n, -, hle, hlt, hsign, hfinite, hulps, hdecides⟩ :=
    ceil_decides hrange
  obtain ⟨hhi, hn⟩ := hdecides.mp hceil
  have hlo := hrange.sign hrange.le
  refine ⟨hsign, ?_, ?_, ?_⟩
  · rw [bits_le_iff_ulps_le hlo hsign, hulps]
    exact hle
  · rw [bits_le_iff_ulps_le hsign (hrange.sign (Nat.le_refl _)), hulps]
    exact hhi
  · intro w hw hge hwle
    rw [floatToIndex_simple hsign hfinite hn hulps]
    cases hsimple : isSimpleFloat w with
    | false =>
        have htag := le_floatToIndex_of_not_simple hw hsimple
        omega
    | true =>
        have hwf := hrange.isFinite hwle
        obtain ⟨k, hk, hkulps⟩ := (isSimpleFloat_iff hw hwf).mp hsimple
        rw [floatToIndex_simple hw hwf hk hkulps]
        have hlow := (bits_le_iff_ulps_le hlo hw).mp hge
        by_contra hgt
        have hmul : (k + 1) * one ≤ n * one :=
          Nat.mul_le_mul_right one (by omega)
        rw [Nat.succ_mul] at hmul
        omega

end Range

section Binade

/-- The fraction in `[mMin, mMax]` that comes first under an exponent. -/
def bestMantissa (e mMin mMax : Nat) : Nat :=
  mMin / 2 ^ fractionBits e * 2 ^ fractionBits e +
    minReversedInRange (mMin % 2 ^ fractionBits e)
      (mMax % 2 ^ fractionBits e) (fractionBits e)

variable {e mMin mMax : Nat}

/-- The source's computation of the best fraction. -/
theorem bestMantissa_eq (e mMin mMax : Nat) :
    (if (e : Int) - 1023 ≥ 52 then mMin
      else
        let nFrac := if (e : Int) - 1023 ≤ 0 then 52
          else (52 - ((e : Int) - 1023)).toNat
        let lowMask := 2 ^ nFrac - 1
        let h := mMin / 2 ^ nFrac
        h * 2 ^ nFrac |||
          minReversedInRange (mMin &&& lowMask) (mMax &&& lowMask) nFrac) =
      bestMantissa e mMin mMax := by
  by_cases hlarge : (e : Int) - 1023 ≥ 52
  · have hbits : fractionBits e = 0 := by
      rw [fractionBits]
      omega
    rw [if_pos hlarge, bestMantissa, hbits]
    simp [minReversedInRange]
  · have hbits : (if (e : Int) - 1023 ≤ 0 then 52
        else (52 - ((e : Int) - 1023)).toNat) = fractionBits e := by
      rw [fractionBits]
      split <;> omega
    rw [if_neg hlarge]
    simp only [hbits]
    rw [and_lowMask, and_lowMask, bestMantissa]
    have hpos : 0 < 2 ^ fractionBits e := by positivity
    exact or_of_lt (minReversedInRange_lt _ (Nat.mod_lt _ hpos)
      (Nat.mod_lt _ hpos))

theorem bestMantissa_spec (hle : mMin ≤ mMax) (hmax : mMax < 2 ^ 52)
    (hhigh : fractionBits e = 0 ∨
      mMin / 2 ^ fractionBits e = mMax / 2 ^ fractionBits e) :
    mMin ≤ bestMantissa e mMin mMax ∧ bestMantissa e mMin mMax ≤ mMax ∧
      ∀ f, mMin ≤ f → f ≤ mMax →
        mantissaCode e (bestMantissa e mMin mMax) ≤ mantissaCode e f := by
  rcases hhigh with hbits | hhigh
  · have hbest : bestMantissa e mMin mMax = mMin := by
      rw [bestMantissa, hbits]
      simp [minReversedInRange]
    have hcode : ∀ f < 2 ^ 52, mantissaCode e f = f := by
      intro f hf
      rw [mantissaCode, updateMantissa_eq e hf, hbits]
      simp [reverseBitsN]
    rw [hbest]
    refine ⟨Nat.le_refl _, hle, fun f hmin hmax' => ?_⟩
    rw [hcode mMin (by omega), hcode f (by omega)]
    exact hmin
  · have hpos : 0 < 2 ^ fractionBits e := by positivity
    generalize hunit : 2 ^ fractionBits e = unit at *
    have hminSplit := Nat.div_add_mod mMin unit
    have hmaxSplit := Nat.div_add_mod mMax unit
    rw [Nat.mul_comm] at hminSplit hmaxSplit
    have hlow : mMin % unit ≤ mMax % unit := by
      rw [hhigh] at hminSplit
      omega
    obtain ⟨hge, hbound⟩ := minReversedInRange_bounds (fractionBits e) hlow
      (by rw [hunit]; exact Nat.mod_lt _ hpos)
    have hbest : bestMantissa e mMin mMax = mMin / unit * unit +
        minReversedInRange (mMin % unit) (mMax % unit) (fractionBits e) := by
      rw [bestMantissa, hunit]
    have hbestLt := (Nat.mod_lt mMax hpos).trans_le' hbound
    refine ⟨?_, ?_, fun f hmin hmax' => ?_⟩
    · omega
    · rw [hhigh] at hbest
      omega
    · have hfHigh : f / unit = mMin / unit := by
        apply Nat.le_antisymm
        · rw [hhigh]
          exact Nat.div_le_div_right hmax'
        · exact Nat.div_le_div_right hmin
      have hfSplit := Nat.div_add_mod f unit
      rw [Nat.mul_comm, hfHigh] at hfSplit
      have hbestLe : bestMantissa e mMin mMax ≤ mMax := by
        rw [hhigh] at hbest
        omega
      rw [mantissaCode, mantissaCode, updateMantissa_eq e (by omega),
        updateMantissa_eq e (by omega), hunit, hbest,
        Nat.add_comm (mMin / unit * unit), Nat.add_mul_div_right _ _ hpos,
        Nat.div_eq_of_lt hbestLt, Nat.zero_add, Nat.add_mul_mod_self_right,
        Nat.mod_eq_of_lt hbestLt, hfHigh]
      apply Nat.add_le_add_left
      apply reverseBitsN_minReversedInRange_le
      · omega
      · rw [hhigh] at hfSplit
        omega
      · rw [hunit]
        exact Nat.mod_lt _ hpos

end Binade

section Simplest

open Binary64

variable {lo hi w : Binary64}

/-- Exponent and fraction make up the bits of a positive float. -/
theorem bits_ofBits_fields {e m : Nat} (he : e < 2047) (hm : m < 2 ^ 52) :
    (ofBits (e * 2 ^ 52 ||| m)).bits = e * 2 ^ 52 + m := by
  rw [or_of_lt hm]
  exact bits_ofBits (by omega)

theorem fields_of_bits {e m : Nat} (hm : m < 2 ^ 52)
    (hbits : w.bits = e * 2 ^ 52 + m) (hsign : w.isSignNegative = false) :
    w.biasedExponent = e ∧ w.fraction = m := by
  have hsplit := bits_eq hsign
  have hfraction := w.fraction_lt
  omega

/-- The best fraction under the best exponent of a range in which nothing is
simple. -/
theorem isSimplestIn_fields (hrange : PositiveRange lo hi)
    (htagged : ∀ w, InRange lo hi w → isSimpleFloat w = false)
    {e mMin mMax : Nat} (hle : mMin ≤ mMax) (hmax : mMax < 2 ^ 52)
    (hhigh : fractionBits e = 0 ∨
      mMin / 2 ^ fractionBits e = mMax / 2 ^ fractionBits e)
    (hlo : lo.bits ≤ e * 2 ^ 52 + mMin) (hhi : e * 2 ^ 52 + mMax ≤ hi.bits)
    (hbest : ∀ w, InRange lo hi w →
      encodeExponent e < encodeExponent w.biasedExponent ∨
        e = w.biasedExponent ∧ mMin ≤ w.fraction ∧ w.fraction ≤ mMax) :
    IsSimplestIn lo hi
      (ofBits (e * 2 ^ 52 ||| bestMantissa e mMin mMax)) := by
  have hfinite := hrange.finite
  obtain ⟨hge, hbound, hminimal⟩ := bestMantissa_spec hle hmax hhigh
  have hbits := bits_ofBits_fields (e := e) (by omega)
    (show bestMantissa e mMin mMax < 2 ^ 52 by omega)
  generalize hv : ofBits (e * 2 ^ 52 ||| bestMantissa e mMin mMax) = v at *
  have hin : InRange lo hi v := ⟨by omega, by omega⟩
  have hsign := hrange.sign hin.le
  obtain ⟨hexponent, hfraction⟩ := fields_of_bits (by omega) hbits hsign
  refine ⟨hsign, hin.ge, hin.le, fun w hw hgew hlew => ?_⟩
  have hwin : InRange lo hi w := ⟨hgew, hlew⟩
  rw [floatToIndex_tagged hsign (htagged v hin),
    floatToIndex_tagged hw (htagged w hwin), hexponent, hfraction]
  apply taggedIndex_le (by omega)
  rcases hbest w hwin with hlt | ⟨heq, hwmin, hwmax⟩
  · exact .inl hlt
  · exact .inr ⟨heq, hminimal _ hwmin hwmax⟩

theorem encodeExponent_lt_of_lt {e e' : Nat} (hlow : 1023 ≤ e)
    (hlt : e < e') (htop : e' < 2047) :
    encodeExponent e < encodeExponent e' := by
  rw [encodeExponent, encodeExponent, if_neg (by omega), if_pos hlow,
    if_neg (by omega), if_pos (by omega)]
  omega

theorem encodeExponent_lt_of_gt {e e' : Nat} (hhigh : e < 1023)
    (hlt : e' < e) : encodeExponent e < encodeExponent e' := by
  rw [encodeExponent, encodeExponent, if_neg (by omega), if_neg (by omega),
    if_neg (by omega), if_neg (by omega)]
  omega

end Simplest

section SimplestInRange

open Binary64

variable {lo hi : Binary64}

theorem simplestInRange_eq (hrange : PositiveRange lo hi)
    (hceil : ¬(lo.ceil.le hi && lo.ceil.lt (ofNat (2 ^ 56))) = true) :
    simplestInRange lo hi =
      if lo.biasedExponent ≥ 1023 then
        ofBits (lo.biasedExponent * 2 ^ 52 |||
          bestMantissa lo.biasedExponent lo.fraction
            (if hi.biasedExponent = lo.biasedExponent then hi.fraction
            else 2 ^ 52 - 1))
      else
        ofBits (hi.biasedExponent * 2 ^ 52 |||
          bestMantissa hi.biasedExponent
            (if lo.biasedExponent = hi.biasedExponent then lo.fraction else 0)
            hi.fraction) := by
  have hfields : ∀ v : Binary64, v.bits ≤ hi.bits →
      v.bits / 2 ^ 52 = v.biasedExponent ∧ v.bits % 2 ^ 52 = v.fraction := by
    intro v hv
    have hbits := bits_eq (hrange.sign hv)
    have hfraction := v.fraction_lt
    omega
  obtain ⟨hloExp, hloFrac⟩ := hfields lo hrange.le
  obtain ⟨hhiExp, hhiFrac⟩ := hfields hi (Nat.le_refl _)
  rw [simplestInRange]
  simp only [if_neg hceil, hloExp, hloFrac, hhiExp, hhiFrac]
  by_cases hlarge : lo.biasedExponent ≥ 1023
  · simp only [if_pos hlarge]
    rw [bestMantissa_eq]
  · simp only [if_neg hlarge]
    rw [bestMantissa_eq]

/-- Without an integer in the range, both ends have the same whole part. -/
theorem same_whole {n : Nat} (hn : 0 < n)
    (hlt : n * one < lo.ulps + one) (hle : lo.ulps ≤ hi.ulps)
    (hhi : hi.ulps < n * one) : lo.ulps / one = hi.ulps / one := by
  have hone := Binary64.one_pos
  obtain ⟨m, rfl⟩ := Nat.exists_eq_add_of_le hn
  rw [Nat.add_mul] at hlt hhi
  have hlo : lo.ulps / one = m := by
    apply Nat.div_eq_of_lt_le
    · omega
    · rw [Nat.succ_mul]
      omega
  have hhi : hi.ulps / one = m := by
    apply Nat.div_eq_of_lt_le
    · omega
    · rw [Nat.succ_mul]
      omega
  rw [hlo, hhi]

/-- The whole part under an exponent from one unit up. -/
theorem whole_eq {v : Binary64} (hlow : 1023 ≤ v.biasedExponent)
    (hhigh : v.biasedExponent < 1075) :
    v.ulps / one = 2 ^ (52 - fractionBits v.biasedExponent) +
      v.fraction / 2 ^ fractionBits v.biasedExponent := by
  have hbits : fractionBits v.biasedExponent = 1075 - v.biasedExponent := by
    rw [fractionBits]
    omega
  have hpow : 2 ^ 52 = 2 ^ (52 - fractionBits v.biasedExponent) *
      2 ^ fractionBits v.biasedExponent := by
    rw [← pow_add, Nat.sub_add_cancel (by omega)]
  rw [← wholePart_eq, wholePart, if_neg (by omega), if_pos hhigh, ← hbits]
  conv_lhs => rw [hpow]
  rw [Nat.add_comm, Nat.add_mul_div_right _ _ (by positivity), Nat.add_comm]

/-- Without an integer in the range, the upper end stays in the binade of a
lower end that is at least one unit. -/
theorem exponent_le {n : Nat} (hlow : 1023 ≤ lo.biasedExponent)
    (hlt : n * one < lo.ulps + one) (hhi : hi.ulps < n * one) :
    hi.biasedExponent ≤ lo.biasedExponent := by
  by_contra hgt
  obtain ⟨e, he⟩ := Nat.exists_eq_add_of_le
    (show 1 ≤ lo.biasedExponent by omega)
  obtain ⟨e', he'⟩ := Nat.exists_eq_add_of_le
    (show 1 ≤ hi.biasedExponent by omega)
  rw [Nat.add_comm] at he he'
  have hupper := (ulps_bounds he).2
  have hlower := (ulps_bounds he').1
  have hbinade : 2 ^ 53 * 2 ^ e ≤ 2 ^ 52 * 2 ^ e' := by
    rw [← pow_add, ← pow_add]
    exact Nat.pow_le_pow_right (by decide) (by omega)
  have hwhole : 2 ^ 53 * 2 ^ e = 2 ^ (53 + e - 1074) * one := by
    rw [one, ← pow_add, ← pow_add, Nat.sub_add_cancel (by omega)]
  rw [hwhole] at hupper hbinade
  have hn : n ≤ 2 ^ (53 + e - 1074) := by
    by_contra hlarge
    have hmul : (2 ^ (53 + e - 1074) + 1) * one ≤ n * one :=
      Nat.mul_le_mul_right one (by omega)
    rw [Nat.succ_mul] at hmul
    omega
  have hmul : n * one ≤ 2 ^ (53 + e - 1074) * one :=
    Nat.mul_le_mul_right one hn
  omega

/-- From two units' worth of binades below, the least whole number of units is
a simple integer. -/
theorem ceil_lt_of_exponent {n : Nat} (hhigh : lo.biasedExponent < 1075)
    (hlt : n * one < lo.ulps + one) : n < 2 ^ 56 := by
  by_contra hlarge
  have hulps := ulps_lt_of_exponent_le
    (show lo.biasedExponent ≤ 1074 by omega)
  have hunit : one = 2 ^ 1074 := by rw [one]
  rw [← hunit] at hulps
  have hmul : 2 ^ 56 * one ≤ n * one := Nat.mul_le_mul_right one (by omega)
  have hone := Binary64.one_pos
  omega

theorem one_le_ulps {v : Binary64} (hv : 1023 ≤ v.biasedExponent) :
    one ≤ v.ulps := by
  obtain ⟨e, he⟩ := Nat.exists_eq_add_of_le
    (show 1 ≤ v.biasedExponent by omega)
  rw [Nat.add_comm] at he
  have hlower := (ulps_bounds he).1
  rw [← pow_add] at hlower
  have hunit : one = 2 ^ 1074 := by rw [one]
  have hpow := Nat.pow_le_pow_right (show 0 < 2 by decide)
    (show 1074 ≤ 52 + e by omega)
  exact hunit.le.trans (hpow.trans hlower)

/-- The simplest float of a positive range. -/
theorem isSimplestIn_simplestInRange (hrange : PositiveRange lo hi) :
    IsSimplestIn lo hi (simplestInRange lo hi) := by
  by_cases hceil :
      (lo.ceil.le hi && lo.ceil.lt (ofNat (2 ^ 56))) = true
  · have hresult : simplestInRange lo hi = lo.ceil := by
      rw [simplestInRange]
      simp only [if_pos hceil]
    rw [hresult]
    exact isSimplestIn_ceil hrange hceil
  · obtain ⟨n, hn, hle, hlt, -, -, -, hdecides⟩ := ceil_decides hrange
    rw [hdecides] at hceil
    have htagged : ∀ w, InRange lo hi w → isSimpleFloat w = false :=
      fun w => not_simple_of_ceil hrange hlt hceil
    have hloSign := hrange.sign hrange.le
    have hhiSign := hrange.sign (Nat.le_refl hi.bits)
    have hloBits := bits_eq hloSign
    have hhiBits := bits_eq hhiSign
    have hloFraction := lo.fraction_lt
    have hhiFraction := hi.fraction_lt
    have hbits := hrange.le
    have hfinite := hrange.finite
    have hulps := (bits_le_iff_ulps_le hloSign hhiSign).mp hrange.le
    have hwithin : ∀ w, InRange lo hi w →
        w.bits = w.biasedExponent * 2 ^ 52 + w.fraction ∧
          w.fraction < 2 ^ 52 ∧ lo.bits ≤ w.bits ∧ w.bits ≤ hi.bits :=
      fun w hw => ⟨bits_eq (hrange.sign hw.le), w.fraction_lt, hw.ge, hw.le⟩
    rw [simplestInRange_eq hrange (by rwa [hdecides])]
    by_cases hlarge : lo.biasedExponent ≥ 1023
    · rw [if_pos hlarge]
      have htop : ∀ w, InRange lo hi w → w.biasedExponent < 2047 := by
        intro w hw
        obtain ⟨hwBits, hwFraction, -, hwHi⟩ := hwithin w hw
        omega
      rcases Nat.lt_or_ge lo.biasedExponent 1075 with hmiddle | hhuge
      -- a fraction of the binade stands for a fraction of a unit
      · have hnSmall := ceil_lt_of_exponent hmiddle hlt
        have hhi : hi.ulps < n * one := by omega
        have hexponent := exponent_le hlarge hlt hhi
        have hsame : hi.biasedExponent = lo.biasedExponent := by omega
        have hwhole := same_whole hn hlt hulps hhi
        rw [whole_eq hlarge hmiddle, whole_eq (by omega) (by omega),
          hsame, Nat.add_right_inj] at hwhole
        rw [if_pos hsame]
        apply isSimplestIn_fields hrange htagged (by omega) hhiFraction
          (.inr hwhole) (by omega) (by omega)
        intro w hw
        obtain ⟨hwBits, hwFraction, hwLo, hwHi⟩ := hwithin w hw
        exact .inr (by omega)
      -- everything is an integer, and too large to be simple
      · have hbits : fractionBits lo.biasedExponent = 0 := by
          rw [fractionBits]
          omega
        apply isSimplestIn_fields hrange htagged _ _ (.inl hbits)
        · omega
        · split <;> omega
        · intro w hw
          obtain ⟨hwBits, hwFraction, hwLo, hwHi⟩ := hwithin w hw
          rcases Nat.lt_or_ge lo.biasedExponent w.biasedExponent with hgt | hle
          · exact .inl (encodeExponent_lt_of_lt hlarge hgt (htop w hw))
          · exact .inr (by split <;> omega)
        · split <;> omega
        · split <;> omega
    · rw [if_neg hlarge]
      have hsmall : hi.biasedExponent < 1023 := by
        by_contra hone
        have hlower := one_le_ulps (Nat.le_of_not_lt hone)
        have hupper := ulps_lt_one (Nat.lt_of_not_le hlarge)
        have hn1 : n < 2 := by
          by_contra hge
          have hmul : 2 * one ≤ n * one :=
            Nat.mul_le_mul_right one (by omega)
          omega
        have hunit : n * one = one := by
          rw [show n = 1 by omega, Nat.one_mul]
        exact hceil ⟨by omega, by omega⟩
      have hbits : fractionBits hi.biasedExponent = 52 := by
        rw [fractionBits]
        omega
      have hmin : (if lo.biasedExponent = hi.biasedExponent then lo.fraction
          else 0) < 2 ^ 52 := by
        split <;> omega
      apply isSimplestIn_fields hrange htagged
      · split <;> omega
      · exact hhiFraction
      · rw [hbits, Nat.div_eq_of_lt hmin, Nat.div_eq_of_lt hhiFraction]
        exact .inr rfl
      · split <;> omega
      · omega
      · intro w hw
        obtain ⟨hwBits, hwFraction, hwLo, hwHi⟩ := hwithin w hw
        rcases Nat.lt_or_ge w.biasedExponent hi.biasedExponent with hlt | hge
        · exact .inl (encodeExponent_lt_of_gt hsmall hlt)
        · exact .inr (by split <;> omega)

end SimplestInRange

end Hegel
