/-
The lexicographic index of a float as arithmetic on its fields.  Integral
values below `2 ^ 56` are their own index; any other value's index is the rank
of its exponent followed by its fraction bits, of which the ones that stand
for a fraction are reversed.
-/
import Hegel.FloatIndex

namespace Hegel

section Reversal

theorem reverseBitsN_lt (v n : Nat) : reverseBitsN v n < 2 ^ n := by
  induction n generalizing v with
  | zero => exact Nat.one_pos
  | succ n ih =>
      have hrest := ih (v / 2)
      have hbit : v % 2 * 2 ^ n ≤ 1 * 2 ^ n :=
        Nat.mul_le_mul_right _ (by omega)
      rw [reverseBitsN, pow_succ]
      omega

/-- Reversing appends the bits in front. -/
theorem reverseBitsN_add_pow (v n : Nat) {high : Nat} (hhigh : high ≤ 1) :
    reverseBitsN (v % 2 ^ n + high * 2 ^ n) (n + 1) =
      2 * reverseBitsN v n + high := by
  induction n generalizing v with
  | zero =>
      rw [pow_zero, Nat.mod_one]
      simp only [reverseBitsN]
      omega
  | succ n ih =>
      have hhalf : (v % 2 ^ (n + 1) + high * 2 ^ (n + 1)) / 2 =
          v / 2 % 2 ^ n + high * 2 ^ n := by
        have hdiv := Nat.mod_mul_right_div_self v 2 (2 ^ n)
        rw [pow_succ', Nat.mul_left_comm, Nat.add_mul_div_left _ _ (by decide),
          hdiv]
      have hlow : (v % 2 ^ (n + 1) + high * 2 ^ (n + 1)) % 2 = v % 2 := by
        rw [pow_succ', Nat.mul_left_comm, Nat.add_mul_mod_self_left,
          Nat.mod_mul_right_mod]
      rw [reverseBitsN, hlow, hhalf, ih (v / 2), reverseBitsN, pow_succ]
      ring

/-- Reversing twice gives the low bits back. -/
theorem reverseBitsN_reverseBitsN (v n : Nat) :
    reverseBitsN (reverseBitsN v n) n = v % 2 ^ n := by
  induction n generalizing v with
  | zero => rw [pow_zero, Nat.mod_one]; rfl
  | succ n ih =>
      have hlt := reverseBitsN_lt (v / 2) n
      have hbit : v % 2 ≤ 1 := by omega
      have happend := reverseBitsN_add_pow (reverseBitsN (v / 2) n) n hbit
      rw [Nat.mod_eq_of_lt hlt, ih] at happend
      have hunfold : reverseBitsN v (n + 1) =
          reverseBitsN (v / 2) n + v % 2 * 2 ^ n := Nat.add_comm _ _
      rw [hunfold, happend, pow_succ', Nat.mod_mul, Nat.add_comm]

theorem reverseBitsN_zero (n : Nat) : reverseBitsN 0 n = 0 := by
  induction n with
  | zero => rfl
  | succ n ih => rw [reverseBitsN, Nat.zero_mod, Nat.zero_mul, Nat.zero_div, ih]

end Reversal

section Fields

/-- How many of the 52 fraction bits stand for a fraction. -/
def fractionBits (biasedExp : Nat) : Nat :=
  min 52 (1075 - biasedExp)

theorem and_lowMask (m n : Nat) : m &&& (2 ^ n - 1) = m % 2 ^ n :=
  Nat.and_two_pow_sub_one_eq_mod m n

theorem or_of_lt {high low n : Nat} (hlow : low < 2 ^ n) :
    high * 2 ^ n ||| low = high * 2 ^ n + low := by
  rw [Nat.mul_comm]
  exact (Nat.two_pow_add_eq_or_of_lt hlow high).symm

theorem xor_mod (m n : Nat) : m ^^^ m % 2 ^ n = m / 2 ^ n * 2 ^ n := by
  apply Nat.eq_of_testBit_eq
  intro i
  rw [Nat.testBit_xor, Nat.testBit_mod_two_pow, Nat.mul_comm,
    Nat.testBit_two_pow_mul, Nat.testBit_div_two_pow]
  by_cases hi : i < n
  · simp [hi, Nat.not_le.mpr hi]
  · simp [hi, Nat.le_of_not_lt hi, Nat.sub_add_cancel (Nat.le_of_not_lt hi)]

/-- The fraction's bits are reversed, the others stay. -/
theorem updateMantissa_eq (biasedExp : Nat) {m : Nat} (hm : m < 2 ^ 52) :
    updateMantissa (biasedExp - 1023) m =
      m / 2 ^ fractionBits biasedExp * 2 ^ fractionBits biasedExp +
        reverseBitsN (m % 2 ^ fractionBits biasedExp)
          (fractionBits biasedExp) := by
  rw [updateMantissa, fractionBits]
  by_cases hsmall : (biasedExp : Int) - 1023 ≤ 0
  · rw [if_pos hsmall, Nat.min_eq_left (by omega), Nat.div_eq_of_lt hm,
      Nat.mod_eq_of_lt hm, Nat.zero_mul, Nat.zero_add]
  · rw [if_neg hsmall, Nat.min_eq_right (by omega)]
    by_cases hmiddle : (biasedExp : Int) - 1023 ≤ 51
    · have hbits : (52 - ((biasedExp : Int) - 1023)).toNat =
          1075 - biasedExp := by omega
      rw [if_pos hmiddle]
      simp only [hbits]
      rw [and_lowMask, xor_mod, or_of_lt (reverseBitsN_lt _ _)]
    · rw [if_neg hmiddle, Nat.sub_eq_zero_of_le (by omega)]
      simp [reverseBitsN]

end Fields
section Index

open Binary64

variable {v : Binary64}

theorem biasedExponent_lt (v : Binary64) : v.biasedExponent < 2 ^ 11 := by
  have hlt := v.magnitude_lt
  rw [biasedExponent]
  omega

theorem bits_eq (hsign : v.isSignNegative = false) :
    v.bits = v.biasedExponent * 2 ^ 52 + v.fraction := by
  rw [← magnitude_eq, magnitude_of_nonneg
    ((isSignNegative_eq_false_iff v).mp hsign)]

/-- The reordered fraction bits of a value. -/
def mantissaCode (biasedExp fraction : Nat) : Nat :=
  updateMantissa (biasedExp - 1023) fraction

theorem mantissaCode_lt (biasedExp : Nat) {m : Nat} (hm : m < 2 ^ 52) :
    mantissaCode biasedExp m < 2 ^ 52 := by
  have hreverse := reverseBitsN_lt (m % 2 ^ fractionBits biasedExp)
    (fractionBits biasedExp)
  have hsplit : 2 ^ 52 = 2 ^ (52 - fractionBits biasedExp) *
      2 ^ fractionBits biasedExp := by
    have hle : fractionBits biasedExp ≤ 52 := Nat.min_le_left _ _
    rw [← pow_add, Nat.sub_add_cancel hle]
  have hhigh : m / 2 ^ fractionBits biasedExp <
      2 ^ (52 - fractionBits biasedExp) := by
    rw [Nat.div_lt_iff_lt_mul (by positivity), ← hsplit]
    exact hm
  have hmul := Nat.mul_le_mul_right (2 ^ fractionBits biasedExp)
    (Nat.succ_le_of_lt hhigh)
  rw [← hsplit, Nat.succ_mul] at hmul
  rw [mantissaCode, updateMantissa_eq biasedExp hm]
  omega

/-- Reordering twice restores the fraction bits. -/
theorem mantissaCode_mantissaCode (biasedExp : Nat) {m : Nat}
    (hm : m < 2 ^ 52) :
    mantissaCode biasedExp (mantissaCode biasedExp m) = m := by
  have hlt := mantissaCode_lt biasedExp hm
  have hreverse := reverseBitsN_lt (m % 2 ^ fractionBits biasedExp)
    (fractionBits biasedExp)
  have hcode := updateMantissa_eq biasedExp hm
  rw [mantissaCode] at hlt ⊢
  rw [mantissaCode] at *
  rw [updateMantissa_eq biasedExp hlt, hcode,
    Nat.add_comm (m / _ * _), Nat.add_mul_div_right _ _ (by positivity),
    Nat.div_eq_of_lt hreverse, Nat.zero_add, Nat.add_mul_mod_self_right,
    Nat.mod_eq_of_lt hreverse, reverseBitsN_reverseBitsN, Nat.mod_mod,
    Nat.mul_comm, Nat.div_add_mod]

theorem encodeExponent_lt {e : Nat} (he : e < 2 ^ 11) :
    encodeExponent e < 2 ^ 11 := by
  rw [encodeExponent]
  split
  · decide
  · split <;> omega

theorem decodeExponent_encodeExponent {e : Nat} (he : e < 2 ^ 11) :
    decodeExponent (encodeExponent e) = e := by
  rw [encodeExponent]
  split
  case isTrue htop => rw [decodeExponent, if_pos rfl, htop]
  case isFalse =>
    split
    · rw [decodeExponent, if_neg (by omega), if_pos (by omega)]
      omega
    · rw [decodeExponent, if_neg (by omega), if_neg (by omega)]
      omega

theorem encodeExponent_decodeExponent {e : Nat} (he : e < 2 ^ 11) :
    encodeExponent (decodeExponent e) = e := by
  rw [decodeExponent]
  split
  case isTrue htop => rw [encodeExponent, if_pos rfl, htop]
  case isFalse =>
    split
    · rw [encodeExponent, if_neg (by omega), if_pos (by omega)]
      omega
    · rw [encodeExponent, if_neg (by omega), if_neg (by omega)]
      omega

/-- The exponents of finite values have the codes below the last. -/
theorem encodeExponent_le (hfinite : v.isFinite = true) :
    encodeExponent v.biasedExponent ≤ 2046 := by
  have hfield : v.biasedExponent ≤ 2046 := by
    rw [isFinite, decide_eq_true_eq] at hfinite
    rw [biasedExponent]
    omega
  rw [encodeExponent]
  split
  · omega
  · split <;> omega

/-- The code of a value that is not simple. -/
def taggedIndex (biasedExp fraction : Nat) : Nat :=
  2 ^ 63 + encodeExponent biasedExp * 2 ^ 52 +
    mantissaCode biasedExp fraction

theorem tagged_eq {code mantissa : Nat} (hcode : code < 2 ^ 11)
    (hmantissa : mantissa < 2 ^ 52) :
    2 ^ 63 ||| code * 2 ^ 52 ||| mantissa =
      2 ^ 63 + code * 2 ^ 52 + mantissa := by
  have hhigh : 1 * 2 ^ 63 ||| (code * 2 ^ 52 + mantissa) =
      1 * 2 ^ 63 + (code * 2 ^ 52 + mantissa) := or_of_lt (by omega)
  rw [Nat.or_assoc, or_of_lt hmantissa, ← Nat.one_mul (2 ^ 63), hhigh]
  omega

theorem floatToIndex_tagged (hsign : v.isSignNegative = false)
    (hsimple : isSimpleFloat v = false) :
    floatToIndex v = taggedIndex v.biasedExponent v.fraction := by
  have hbits := bits_eq hsign
  have hexponent := biasedExponent_lt v
  have hfraction := v.fraction_lt
  have hfield : v.bits / 2 ^ 52 % 2 ^ 11 = v.biasedExponent := by omega
  have hlow : v.bits % 2 ^ 52 = v.fraction := rfl
  rw [floatToIndex, hsimple]
  simp only [Bool.false_eq_true, if_false]
  rw [hfield, hlow]
  exact tagged_eq (encodeExponent_lt hexponent) (mantissaCode_lt _ hfraction)

/-- The simple values are the integers below `2 ^ 56`. -/
theorem isSimpleFloat_iff (hsign : v.isSignNegative = false)
    (hfinite : v.isFinite = true) :
    isSimpleFloat v = true ↔ ∃ n < 2 ^ 56, v.ulps = n * one := by
  have hone := Binary64.one_pos
  have hnan : v.isNan = false := by
    rw [isFinite, decide_eq_true_eq] at hfinite
    rw [isNan, decide_eq_false_iff_not]
    omega
  rw [isSimpleFloat, hsign, hfinite]
  simp only [Bool.not_true, Bool.or_self, Bool.false_eq_true, if_false,
    Bool.and_eq_true, decide_eq_true_eq]
  have htoNat := toNat_of_nonneg hsign hnan
  constructor
  · rintro ⟨heq, hlt⟩
    refine ⟨v.toNat, hlt, ?_⟩
    have hround : (ofNat v.toNat).orderKey = v.orderKey := by
      rw [numEq, Bool.and_eq_true, decide_eq_true_eq] at heq
      exact heq.2
    rw [orderKey, orderKey, hsign, isSignNegative_ofNat (by omega)] at hround
    simp only [Bool.false_eq_true, if_false, Int.natCast_inj] at hround
    have hsame : ofNat v.toNat = v :=
      ext_sign_magnitude ((isSignNegative_ofNat (by omega)).trans hsign.symm)
        hround
    have hulps := ulps_ofNat (n := v.toNat) (by omega)
    rw [hsame] at hulps
    rw [hulps, Nat.mul_div_cancel _ hone] at htoNat
    have hvalue : v.toNat = roundNat v.toNat := by
      rcases Nat.le_total (roundNat v.toNat) (2 ^ 64 - 1) with hle | hle
      · exact htoNat.trans (Nat.min_eq_left hle)
      · have htop := htoNat.trans (Nat.min_eq_right hle)
        omega
    rw [hulps, ← hvalue]
  · rintro ⟨n, hn, hulps⟩
    have hvalue : v.toNat = n := by
      rw [htoNat, hulps, Nat.mul_div_cancel _ hone]
      exact Nat.min_eq_left (by omega)
    have hsame := ofNat_of_ulps hsign (by omega) hulps
    rw [hvalue, hsame]
    refine ⟨?_, hn⟩
    rw [numEq, hnan]
    simp

/-- A simple value is its own index. -/
theorem floatToIndex_simple (hsign : v.isSignNegative = false)
    (hfinite : v.isFinite = true) {n : Nat} (hn : n < 2 ^ 56)
    (hulps : v.ulps = n * one) : floatToIndex v = n := by
  have hnan : v.isNan = false := by
    rw [isFinite, decide_eq_true_eq] at hfinite
    rw [isNan, decide_eq_false_iff_not]
    omega
  rw [floatToIndex, if_pos ((isSimpleFloat_iff hsign hfinite).mpr
    ⟨n, hn, hulps⟩), toNat_of_nonneg hsign hnan, hulps,
    Nat.mul_div_cancel _ Binary64.one_pos]
  exact Nat.min_eq_left (by omega)

/-- Tagged indices compare by the rank of the exponent first. -/
theorem taggedIndex_le {e e' f f' : Nat} (hf : f < 2 ^ 52)
    (hle : encodeExponent e < encodeExponent e' ∨
      e = e' ∧ mantissaCode e f ≤ mantissaCode e f') :
    taggedIndex e f ≤ taggedIndex e' f' := by
  have hcode := mantissaCode_lt e hf
  rw [taggedIndex, taggedIndex]
  rcases hle with hlt | ⟨rfl, hle⟩
  · omega
  · omega

end Index

end Hegel
