/-
Binary64 floating-point data as bit patterns.  Values are compared, negated,
truncated to integers and rounded from integers on their bits; a finite value
is measured exactly as a whole number of the smallest subnormal, which is how
the arithmetic facts below are stated.
-/
import Mathlib.Data.Nat.Log
import Mathlib.Tactic.Ring
import Mathlib.Tactic.Positivity

namespace Hegel

/-- A binary64 datum is its 64 bits: equality is bit for bit. -/
structure Binary64 where
  bits : Nat
  isLt : bits < 2 ^ 64
deriving DecidableEq

namespace Binary64

/-- The datum of a bit pattern, keeping the low 64 bits. -/
def ofBits (bits : Nat) : Binary64 :=
  ⟨bits % 2 ^ 64, Nat.mod_lt _ (by decide)⟩

/-- The bits below the sign. -/
def magnitude (v : Binary64) : Nat :=
  v.bits % 2 ^ 63

def isSignNegative (v : Binary64) : Bool :=
  decide (2 ^ 63 ≤ v.bits)

def biasedExponent (v : Binary64) : Nat :=
  v.magnitude / 2 ^ 52

def fraction (v : Binary64) : Nat :=
  v.bits % 2 ^ 52

def isNan (v : Binary64) : Bool :=
  decide (2047 * 2 ^ 52 < v.magnitude)

def isInfinite (v : Binary64) : Bool :=
  decide (v.magnitude = 2047 * 2 ^ 52)

def isFinite (v : Binary64) : Bool :=
  decide (v.magnitude < 2047 * 2 ^ 52)

def zero : Binary64 := ⟨0, by decide⟩

def negZero : Binary64 := ⟨2 ^ 63, by decide⟩

def infinity : Binary64 := ⟨2047 * 2 ^ 52, by decide⟩

def negInfinity : Binary64 := ⟨2 ^ 63 + 2047 * 2 ^ 52, by decide⟩

theorem one_lt : 1 < 2 ^ 64 := by decide

theorem infinity_isNan : infinity.isNan = false := by decide

theorem negInfinity_isNan : negInfinity.isNan = false := by decide

/-- The quiet NaN with an empty payload. -/
def nan : Binary64 := ⟨2047 * 2 ^ 52 + 2 ^ 51, by decide⟩

/-- The largest finite value. -/
def maxFinite : Binary64 := ⟨2047 * 2 ^ 52 - 1, by decide⟩

/-- Flip the sign bit. -/
def neg (v : Binary64) : Binary64 :=
  if h : 2 ^ 63 ≤ v.bits then ⟨v.bits - 2 ^ 63, by have := v.isLt; omega⟩
  else ⟨v.bits + 2 ^ 63, by omega⟩

/-- Clear the sign bit. -/
def abs (v : Binary64) : Binary64 :=
  ⟨v.magnitude, by
    have := Nat.mod_lt v.bits (show 0 < 2 ^ 63 by decide)
    rw [magnitude]
    omega⟩

/-- Sign and magnitude read as one integer: the value order of the data that
are not NaN, both zeros at `0`. -/
def orderKey (v : Binary64) : Int :=
  if v.isSignNegative then -(v.magnitude : Int) else v.magnitude

def lt (x y : Binary64) : Bool :=
  !x.isNan && !y.isNan && decide (x.orderKey < y.orderKey)

def le (x y : Binary64) : Bool :=
  !x.isNan && !y.isNan && decide (x.orderKey ≤ y.orderKey)

/-- Numerical equality: the zeros agree and a NaN equals nothing. -/
def numEq (x y : Binary64) : Bool :=
  !x.isNan && !y.isNan && decide (x.orderKey = y.orderKey)

/-- The larger of two values; a NaN gives way to the other side. -/
def max (x y : Binary64) : Binary64 :=
  if x.isNan then y else if y.isNan then x else if x.lt y then y else x

/-- The smaller of two values; a NaN gives way to the other side. -/
def min (x y : Binary64) : Binary64 :=
  if x.isNan then y else if y.isNan then x else if y.lt x then y else x

/-- The size of a finite value, counted in smallest subnormals. -/
def ulps (v : Binary64) : Nat :=
  if v.biasedExponent = 0 then v.fraction
  else (2 ^ 52 + v.fraction) * 2 ^ (v.biasedExponent - 1)

/-- The smallest subnormals in one unit. -/
def one : Nat := 2 ^ 1074

/-- The whole part of the size of a finite value. -/
def wholePart (v : Binary64) : Nat :=
  if v.biasedExponent < 1023 then 0
  else if v.biasedExponent < 1075 then
    (2 ^ 52 + v.fraction) / 2 ^ (1075 - v.biasedExponent)
  else (2 ^ 52 + v.fraction) * 2 ^ (v.biasedExponent - 1075)

/-- Whether a finite value lies strictly between two integers. -/
def hasFraction (v : Binary64) : Bool :=
  if v.biasedExponent < 1023 then decide (v.magnitude ≠ 0)
  else decide (v.fraction % 2 ^ (1075 - v.biasedExponent) ≠ 0)

/-- Truncate towards zero into a 64-bit natural, saturating. -/
def toNat (v : Binary64) : Nat :=
  if v.isNan || v.isSignNegative then 0
  else if v.biasedExponent ≥ 1087 then 2 ^ 64 - 1
  else v.wholePart

/-- Drop the `shift` lowest bits, rounding to nearest and ties to even. -/
def roundShift (n shift : Nat) : Nat :=
  let quotient := n / 2 ^ shift
  let rest := n % 2 ^ shift
  if 2 ^ shift < 2 * rest ∨ (2 ^ shift = 2 * rest ∧ quotient % 2 = 1) then
    quotient + 1
  else quotient

/-- The 53-bit significand a natural is rounded to, scaled up when shorter. -/
def significand (n : Nat) : Nat :=
  if Nat.log2 n ≤ 52 then n * 2 ^ (52 - Nat.log2 n)
  else roundShift n (Nat.log2 n - 52)

/-- The value nearest to a natural below `2 ^ 64`.  A significand rounded up
to `2 ^ 53` carries into the exponent by itself. -/
def ofNat (n : Nat) : Binary64 :=
  if n = 0 then zero
  else ofBits ((Nat.log2 n + 1022) * 2 ^ 52 + significand n)

/-- The value nearest to the quotient of two naturals below `2 ^ 64`.  The
quotient is taken far enough to round it; its last bit stands for the rest. -/
def ofRatio (a b : Nat) : Binary64 :=
  if a = 0 then zero
  else
    let shift := 64 + Nat.log2 b
    let scaled := a <<< shift
    let quotient :=
      if scaled % b = 0 then scaled / b else scaled / b ||| 1
    ofBits ((Nat.log2 quotient + 1022 - shift) * 2 ^ 52 + significand quotient)

/-- The natural that `ofNat` stands for. -/
def roundNat (n : Nat) : Nat :=
  if Nat.log2 n ≤ 52 then n
  else roundShift n (Nat.log2 n - 52) * 2 ^ (Nat.log2 n - 52)

/-- The smallest integral value that is not below a value. -/
def ceil (v : Binary64) : Binary64 :=
  if v.biasedExponent ≥ 1075 then v
  else if v.isSignNegative then (ofNat v.wholePart).neg
  else ofNat (if v.hasFraction then v.wholePart + 1 else v.wholePart)

section Bits

theorem magnitude_lt (v : Binary64) : v.magnitude < 2 ^ 63 :=
  Nat.mod_lt _ (by decide)

theorem ext_bits {x y : Binary64} (hbits : x.bits = y.bits) : x = y := by
  cases x
  cases y
  simpa using hbits

theorem ext_bits_iff {x y : Binary64} : x = y ↔ x.bits = y.bits :=
  ⟨fun h => h ▸ rfl, ext_bits⟩

theorem bits_ofBits {bits : Nat} (hbits : bits < 2 ^ 64) :
    (ofBits bits).bits = bits :=
  Nat.mod_eq_of_lt hbits

theorem ofBits_bits (v : Binary64) : ofBits v.bits = v := by
  exact ext_bits (bits_ofBits v.isLt)

theorem isSignNegative_eq_false_iff (v : Binary64) :
    v.isSignNegative = false ↔ v.bits < 2 ^ 63 := by
  simp [isSignNegative]

theorem magnitude_of_nonneg {v : Binary64} (hv : v.bits < 2 ^ 63) :
    v.magnitude = v.bits :=
  Nat.mod_eq_of_lt hv

theorem magnitude_of_neg {v : Binary64} (hv : 2 ^ 63 ≤ v.bits) :
    v.magnitude = v.bits - 2 ^ 63 := by
  have hlt := v.isLt
  rw [magnitude]
  omega

theorem bits_abs (v : Binary64) : v.abs.bits = v.magnitude := rfl

theorem bits_neg_of_nonneg {v : Binary64} (hv : v.bits < 2 ^ 63) :
    v.neg.bits = v.bits + 2 ^ 63 := by
  rw [neg, dif_neg (by omega)]

theorem bits_neg_of_neg {v : Binary64} (hv : 2 ^ 63 ≤ v.bits) :
    v.neg.bits = v.bits - 2 ^ 63 := by
  rw [neg, dif_pos hv]

@[simp] theorem neg_neg (v : Binary64) : v.neg.neg = v := by
  have hlt := v.isLt
  apply ext_bits
  rcases Nat.lt_or_ge v.bits (2 ^ 63) with hv | hv
  · have hneg := bits_neg_of_nonneg hv
    rw [bits_neg_of_neg (by omega), hneg]
    omega
  · have hneg := bits_neg_of_neg hv
    rw [bits_neg_of_nonneg (by omega), hneg]
    omega

@[simp] theorem magnitude_neg (v : Binary64) :
    v.neg.magnitude = v.magnitude := by
  have hlt := v.isLt
  rcases Nat.lt_or_ge v.bits (2 ^ 63) with hv | hv
  · rw [magnitude, magnitude, bits_neg_of_nonneg hv]
    omega
  · rw [magnitude, magnitude, bits_neg_of_neg hv]
    omega

@[simp] theorem isSignNegative_neg (v : Binary64) :
    v.neg.isSignNegative = !v.isSignNegative := by
  have hlt := v.isLt
  rcases Nat.lt_or_ge v.bits (2 ^ 63) with hv | hv
  · have hneg := bits_neg_of_nonneg hv
    simp only [isSignNegative, hneg]
    rw [decide_eq_true (by omega), decide_eq_false (by omega)]
    rfl
  · have hneg := bits_neg_of_neg hv
    simp only [isSignNegative, hneg]
    rw [decide_eq_false (by omega), decide_eq_true (by omega)]
    rfl

/-- A datum is its sign and its magnitude. -/
theorem ext_sign_magnitude {x y : Binary64}
    (hsign : x.isSignNegative = y.isSignNegative)
    (hmagnitude : x.magnitude = y.magnitude) : x = y := by
  have hx := x.isLt
  have hy := y.isLt
  apply ext_bits
  rw [isSignNegative, isSignNegative, decide_eq_decide] at hsign
  rw [magnitude, magnitude] at hmagnitude
  omega

/-- The magnitude is the exponent followed by the fraction. -/
theorem magnitude_eq (v : Binary64) :
    v.magnitude = v.biasedExponent * 2 ^ 52 + v.fraction := by
  rw [biasedExponent, fraction, magnitude]
  omega

theorem fraction_lt (v : Binary64) : v.fraction < 2 ^ 52 :=
  Nat.mod_lt _ (by decide)

/-- Exactly one of NaN, infinite and finite. -/
theorem finite_or_infinite_or_nan (v : Binary64) :
    v.isFinite = true ∨ v.isInfinite = true ∨ v.isNan = true := by
  simp only [isFinite, isInfinite, isNan, decide_eq_true_eq]
  omega

end Bits

section Ulps

theorem one_pos : 0 < one := by
  rw [one]
  positivity

theorem ulps_of_exponent_zero {v : Binary64} (hv : v.biasedExponent = 0) :
    v.ulps = v.fraction := if_pos hv

theorem ulps_of_exponent_pos {v : Binary64} {e : Nat}
    (hv : v.biasedExponent = e + 1) :
    v.ulps = (2 ^ 52 + v.fraction) * 2 ^ e := by
  rw [ulps, if_neg (by omega), hv, Nat.add_sub_cancel]

/-- The exponent brackets the size. -/
theorem ulps_bounds {v : Binary64} {e : Nat}
    (hv : v.biasedExponent = e + 1) :
    2 ^ 52 * 2 ^ e ≤ v.ulps ∧ v.ulps < 2 ^ 53 * 2 ^ e := by
  have hfraction := v.fraction_lt
  rw [ulps_of_exponent_pos hv]
  refine ⟨Nat.mul_le_mul_right _ (Nat.le_add_right _ _), ?_⟩
  exact Nat.mul_lt_mul_of_pos_right (by omega) (by positivity)

theorem ulps_lt_of_exponent_le {v : Binary64} {e : Nat}
    (hv : v.biasedExponent ≤ e) : v.ulps < 2 ^ 52 * 2 ^ e := by
  rcases hexponent : v.biasedExponent with _ | e'
  · rw [ulps_of_exponent_zero hexponent]
    have hpos : 1 ≤ 2 ^ e := Nat.one_le_two_pow
    have hfraction := v.fraction_lt
    omega
  · have hbounds := ulps_bounds hexponent
    have hpow : 2 ^ (e' + 1) ≤ 2 ^ e :=
      Nat.pow_le_pow_right (by decide) (by omega)
    rw [pow_succ] at hpow
    omega

/-- Sizes order the way magnitudes do. -/
theorem ulps_lt_ulps {x y : Binary64} (hlt : x.magnitude < y.magnitude) :
    x.ulps < y.ulps := by
  have hx := x.magnitude_eq
  have hy := y.magnitude_eq
  have hxf := x.fraction_lt
  have hyf := y.fraction_lt
  rcases hexponent : y.biasedExponent with _ | e
  · have hx0 : x.biasedExponent = 0 := by omega
    rw [ulps_of_exponent_zero hexponent, ulps_of_exponent_zero hx0]
    omega
  · rcases Nat.lt_or_ge x.biasedExponent (e + 1) with hbelow | hsame
    · have hupper := ulps_lt_of_exponent_le (Nat.le_of_lt_succ hbelow)
      have hlower := (ulps_bounds hexponent).1
      omega
    · have hx1 : x.biasedExponent = e + 1 := by omega
      rw [ulps_of_exponent_pos hexponent, ulps_of_exponent_pos hx1]
      exact Nat.mul_lt_mul_of_pos_right (by omega) (by positivity)

theorem ulps_lt_ulps_iff (x y : Binary64) :
    x.ulps < y.ulps ↔ x.magnitude < y.magnitude := by
  refine ⟨fun h => ?_, ulps_lt_ulps⟩
  by_contra hle
  rcases Nat.lt_or_eq_of_le (Nat.le_of_not_lt hle) with hgt | heq
  · have hrev := ulps_lt_ulps hgt
    omega
  · have hsame : x.ulps = y.ulps := by
      have hx := x.magnitude_eq
      have hy := y.magnitude_eq
      have hxf := x.fraction_lt
      have hyf := y.fraction_lt
      rw [ulps, ulps, show x.fraction = y.fraction by omega,
        show x.biasedExponent = y.biasedExponent by omega]
    omega

theorem ulps_le_ulps_iff (x y : Binary64) :
    x.ulps ≤ y.ulps ↔ x.magnitude ≤ y.magnitude := by
  rw [← Nat.not_lt, ← Nat.not_lt, ulps_lt_ulps_iff]

/-- A significand of 53 bits, or its carry, stacked on an exponent. -/
theorem ulps_ofBits {significand exponent : Nat}
    (hlow : 2 ^ 52 ≤ significand) (hhigh : significand ≤ 2 ^ 53)
    (hexponent : exponent ≤ 1200) :
    (ofBits (exponent * 2 ^ 52 + significand)).ulps =
      significand * 2 ^ exponent := by
  have hbits : (ofBits (exponent * 2 ^ 52 + significand)).bits =
      exponent * 2 ^ 52 + significand := bits_ofBits (by omega)
  have hmagnitude : (ofBits (exponent * 2 ^ 52 + significand)).magnitude =
      exponent * 2 ^ 52 + significand := by
    rw [magnitude_of_nonneg (by omega), hbits]
  have hsplit := magnitude_eq (ofBits (exponent * 2 ^ 52 + significand))
  have hfraction := fraction_lt (ofBits (exponent * 2 ^ 52 + significand))
  rw [hmagnitude] at hsplit
  rcases Nat.lt_or_eq_of_le hhigh with hlt | hcarry
  · rw [ulps_of_exponent_pos
      (show biasedExponent _ = exponent + 1 by omega),
      show 2 ^ 52 + fraction _ = significand by omega]
  · rw [ulps_of_exponent_pos
      (show biasedExponent _ = exponent + 1 + 1 by omega),
      show fraction _ = 0 by omega, hcarry]
    ring

theorem one_eq (e : Nat) (he : e ≤ 1074) : one = 2 ^ e * 2 ^ (1074 - e) := by
  rw [one, ← pow_add, Nat.add_sub_cancel' he]

theorem ulps_lt_one {v : Binary64} (hv : v.biasedExponent < 1023) :
    v.ulps < one := by
  have hlt := ulps_lt_of_exponent_le (show v.biasedExponent ≤ 1022 by omega)
  rwa [← pow_add] at hlt

/-- The whole part counts how many units fit. -/
theorem wholePart_eq (v : Binary64) : v.wholePart = v.ulps / one := by
  rw [wholePart]
  split
  case isTrue hsmall => rw [Nat.div_eq_of_lt (ulps_lt_one hsmall)]
  case isFalse hlarge =>
    obtain ⟨e, he⟩ := Nat.exists_eq_add_of_le
      (show 1 ≤ v.biasedExponent by omega)
    rw [Nat.add_comm] at he
    rw [ulps_of_exponent_pos he]
    split
    case isTrue hmiddle =>
      rw [one_eq e (by omega), Nat.mul_comm (2 ^ e),
        Nat.mul_div_mul_right _ _ (by positivity),
        show 1075 - v.biasedExponent = 1074 - e by omega]
    case isFalse htop =>
      have hpow : 2 ^ e = 2 ^ (v.biasedExponent - 1075) * one := by
        rw [one, ← pow_add, show v.biasedExponent - 1075 + 1074 = e by omega]
      rw [hpow, ← Nat.mul_assoc, Nat.mul_div_cancel _ one_pos]

/-- Having a fraction is not being a whole number of units. -/
theorem hasFraction_eq_false_iff (v : Binary64) :
    v.hasFraction = false ↔ one ∣ v.ulps := by
  have hsplit := v.magnitude_eq
  rw [hasFraction]
  split
  case isTrue hsmall =>
    have hlt := ulps_lt_one hsmall
    rw [decide_eq_false_iff_not, Decidable.not_not]
    refine ⟨fun h => ?_, fun h => ?_⟩
    · rw [ulps_of_exponent_zero (by omega), show v.fraction = 0 by omega]
      exact Nat.dvd_zero _
    · have hzero := Nat.eq_zero_of_dvd_of_lt h hlt
      by_contra hne
      have hpos : zero.ulps < v.ulps := by
        rw [ulps_lt_ulps_iff]
        exact Nat.pos_of_ne_zero hne
      omega
  case isFalse hlarge =>
    obtain ⟨e, he⟩ := Nat.exists_eq_add_of_le
      (show 1 ≤ v.biasedExponent by omega)
    rw [Nat.add_comm] at he
    rw [decide_eq_false_iff_not, Decidable.not_not, ulps_of_exponent_pos he,
      ← Nat.dvd_iff_mod_eq_zero]
    rcases Nat.lt_or_ge v.biasedExponent 1075 with hmiddle | htop
    · have hpow : 2 ^ (1075 - v.biasedExponent) ∣ 2 ^ 52 :=
        Nat.pow_dvd_pow 2 (by omega)
      rw [one_eq e (by omega), Nat.mul_comm (2 ^ e),
        Nat.mul_dvd_mul_iff_right (by positivity),
        show 1074 - e = 1075 - v.biasedExponent by omega,
        Nat.dvd_add_right hpow]
    · rw [Nat.sub_eq_zero_of_le htop, pow_zero]
      refine ⟨fun _ => ?_, fun _ => Nat.one_dvd _⟩
      exact Dvd.dvd.mul_left (Nat.pow_dvd_pow 2 (by omega)) _

/-- A size read as whole units is at least `2 ^ 64` from this exponent on. -/
theorem le_ulps_of_exponent {v : Binary64} (hv : 1087 ≤ v.biasedExponent) :
    2 ^ 64 * one ≤ v.ulps := by
  obtain ⟨e, he⟩ := Nat.exists_eq_add_of_le
    (show 1 ≤ v.biasedExponent by omega)
  rw [Nat.add_comm] at he
  have hlow := (ulps_bounds he).1
  rw [← pow_add] at hlow
  rw [one, ← pow_add]
  exact (Nat.pow_le_pow_right (by decide) (by omega)).trans hlow

/-- Truncation is the whole part, cut off at the largest 64-bit natural. -/
theorem toNat_of_nonneg {v : Binary64} (hsign : v.isSignNegative = false)
    (hnan : v.isNan = false) :
    v.toNat = Nat.min (v.ulps / one) (2 ^ 64 - 1) := by
  rw [toNat, hsign, hnan]
  simp only [Bool.or_self, Bool.false_eq_true, if_false]
  split
  case isTrue hlarge =>
    have hle : 2 ^ 64 ≤ v.ulps / one :=
      (Nat.le_div_iff_mul_le one_pos).mpr (le_ulps_of_exponent hlarge)
    exact (Nat.min_eq_right (by omega)).symm
  case isFalse hsmall =>
    have hlt : v.ulps / one < 2 ^ 64 := by
      rw [Nat.div_lt_iff_lt_mul one_pos]
      have hupper := ulps_lt_of_exponent_le
        (show v.biasedExponent ≤ 1086 by omega)
      have hpow : 2 ^ 64 * one = 2 ^ 52 * 2 ^ 1086 := by
        rw [one, ← pow_add, ← pow_add]
      rwa [hpow]
    rw [wholePart_eq]
    exact (Nat.min_eq_left (by omega)).symm

end Ulps

section Rounding

theorem log2_bounds {n : Nat} (hn : n ≠ 0) :
    2 ^ Nat.log2 n ≤ n ∧ n < 2 ^ (Nat.log2 n + 1) :=
  ⟨Nat.log2_self_le hn, Nat.lt_log2_self⟩

theorem roundShift_bounds (n shift : Nat) :
    n / 2 ^ shift ≤ roundShift n shift ∧
      roundShift n shift ≤ n / 2 ^ shift + 1 := by
  rw [roundShift]
  split <;> omega

theorem roundShift_of_dvd {n shift : Nat} (hdvd : 2 ^ shift ∣ n) :
    roundShift n shift = n / 2 ^ shift := by
  have hrest : n % 2 ^ shift = 0 := Nat.mod_eq_zero_of_dvd hdvd
  have hpos : 0 < 2 ^ shift := by positivity
  rw [roundShift]
  simp only [hrest]
  rw [if_neg (by omega)]

theorem significand_bounds {n : Nat} (hn : n ≠ 0) :
    2 ^ 52 ≤ significand n ∧ significand n ≤ 2 ^ 53 := by
  obtain ⟨hlow, hhigh⟩ := log2_bounds hn
  rw [significand]
  split
  case isTrue hshort =>
    have hpow : 2 ^ 52 = 2 ^ Nat.log2 n * 2 ^ (52 - Nat.log2 n) := by
      rw [← pow_add, Nat.add_sub_cancel' hshort]
    have hlower := Nat.mul_le_mul_right (2 ^ (52 - Nat.log2 n)) hlow
    have hupper := Nat.mul_le_mul_right (2 ^ (52 - Nat.log2 n)) hhigh.le
    rw [pow_succ, Nat.mul_right_comm] at hupper
    omega
  case isFalse hlong =>
    obtain ⟨hfloor, hceil⟩ := roundShift_bounds n (Nat.log2 n - 52)
    have hpos : 0 < 2 ^ (Nat.log2 n - 52) := by positivity
    have hpow : 2 ^ Nat.log2 n = 2 ^ 52 * 2 ^ (Nat.log2 n - 52) := by
      rw [← pow_add, Nat.add_sub_cancel' (by omega)]
    have hlower : 2 ^ 52 ≤ n / 2 ^ (Nat.log2 n - 52) := by
      rw [Nat.le_div_iff_mul_le hpos]
      omega
    have hupper : n / 2 ^ (Nat.log2 n - 52) < 2 ^ 53 := by
      rw [Nat.div_lt_iff_lt_mul hpos]
      rw [pow_succ] at hhigh
      omega
    omega

theorem log2_le_63 {n : Nat} (hn : n < 2 ^ 64) : Nat.log2 n ≤ 63 := by
  rcases Nat.eq_zero_or_pos n with rfl | hpos
  · decide
  · exact Nat.le_of_lt_succ ((Nat.log2_lt (by omega)).mpr hn)

/-- Rounding an integer gives a value of exactly the rounded size. -/
theorem ulps_ofNat {n : Nat} (hn : n < 2 ^ 64) :
    (ofNat n).ulps = roundNat n * one := by
  rcases Nat.eq_zero_or_pos n with rfl | hpos
  · rw [show roundNat 0 = 0 by decide, Nat.zero_mul]
    decide
  · have hlog := log2_le_63 hn
    obtain ⟨hlow, hhigh⟩ := significand_bounds (n := n) (by omega)
    rw [ofNat, if_neg (by omega), ulps_ofBits hlow hhigh (by omega),
      significand, roundNat, one]
    split
    case isTrue hshort =>
      rw [Nat.mul_assoc, ← pow_add,
        show 52 - Nat.log2 n + (Nat.log2 n + 1022) = 1074 by omega]
    case isFalse hlong =>
      rw [Nat.mul_assoc, ← pow_add,
        show Nat.log2 n - 52 + 1074 = Nat.log2 n + 1022 by omega]

theorem bits_ofNat_le {n : Nat} (hn : n < 2 ^ 64) :
    (ofNat n).bits ≤ 1087 * 2 ^ 52 := by
  rcases Nat.eq_zero_or_pos n with rfl | hpos
  · decide
  · have hlog := log2_le_63 hn
    obtain ⟨hlow, hhigh⟩ := significand_bounds (n := n) (by omega)
    rw [ofNat, if_neg (by omega), bits_ofBits (by omega)]
    omega

/-- The integers that round to themselves: 53 significant bits suffice. -/
theorem roundNat_eq_self_iff (n : Nat) :
    roundNat n = n ↔ 2 ^ (Nat.log2 n - 52) ∣ n := by
  rw [roundNat]
  split
  case isTrue hshort =>
    rw [Nat.sub_eq_zero_of_le hshort]
    simp
  case isFalse hlong =>
    refine ⟨fun h => ⟨roundShift n (Nat.log2 n - 52), ?_⟩, fun h => ?_⟩
    · rw [Nat.mul_comm]
      exact h.symm
    · rw [roundShift_of_dvd h, Nat.div_mul_cancel h]

/-- Any 53-bit number, shifted, rounds to itself. -/
theorem roundNat_shift {significand : Nat} (shift : Nat)
    (hlow : 2 ^ 52 ≤ significand) (hhigh : significand < 2 ^ 53) :
    roundNat (significand * 2 ^ shift) = significand * 2 ^ shift := by
  have hpos : 0 < 2 ^ shift := by positivity
  have hne : significand * 2 ^ shift ≠ 0 :=
    Nat.mul_ne_zero (by omega) (by omega)
  have hlog : Nat.log2 (significand * 2 ^ shift) = 52 + shift := by
    rw [Nat.log2_eq_iff hne, pow_add, show 52 + shift + 1 = 53 + shift by omega,
      pow_add]
    exact ⟨Nat.mul_le_mul_right _ hlow, Nat.mul_lt_mul_of_pos_right hhigh hpos⟩
  rw [roundNat_eq_self_iff, hlog, Nat.add_sub_cancel_left]
  exact Nat.dvd_mul_left _ _

theorem roundNat_of_lt {n : Nat} (hn : n < 2 ^ 53) : roundNat n = n := by
  rcases Nat.eq_zero_or_pos n with rfl | hpos
  · decide
  · have hlog : Nat.log2 n < 53 := (Nat.log2_lt (by omega)).mpr hn
    rw [roundNat, if_pos (by omega)]

end Rounding

section Integral

theorem bits_ofNat_lt {n : Nat} (hn : n < 2 ^ 64) : (ofNat n).bits < 2 ^ 63 := by
  have hbits := bits_ofNat_le hn
  omega

theorem isSignNegative_ofNat {n : Nat} (hn : n < 2 ^ 64) :
    (ofNat n).isSignNegative = false :=
  (isSignNegative_eq_false_iff _).mpr (bits_ofNat_lt hn)

theorem isFinite_ofNat {n : Nat} (hn : n < 2 ^ 64) :
    (ofNat n).isFinite = true := by
  have hbits := bits_ofNat_le hn
  rw [isFinite, magnitude_of_nonneg (bits_ofNat_lt hn), decide_eq_true_eq]
  omega

/-- A non-negative value is determined by its size. -/
theorem ext_ulps {x y : Binary64} (hx : x.isSignNegative = false)
    (hy : y.isSignNegative = false) (hulps : x.ulps = y.ulps) : x = y := by
  apply ext_sign_magnitude (hx.trans hy.symm)
  have hxy := (ulps_le_ulps_iff x y).mp hulps.le
  have hyx := (ulps_le_ulps_iff y x).mp hulps.ge
  exact Nat.le_antisymm hxy hyx

theorem roundNat_two_pow_53 : roundNat (2 ^ 53) = 2 ^ 53 := by
  have hshift := @roundNat_shift (2 ^ 52) 1 (Nat.le_refl _) (by decide)
  exact hshift

/-- A whole number of units that is the size of some value rounds to
itself. -/
theorem roundNat_of_ulps {v : Binary64} {n : Nat} (hulps : v.ulps = n * one) :
    roundNat n = n := by
  rcases hexponent : v.biasedExponent with _ | e
  · have hlt := ulps_lt_one (v := v) (by omega)
    rw [hulps] at hlt
    have hzero : n = 0 := by
      by_contra hne
      have hle : 1 * one ≤ n * one :=
        Nat.mul_le_mul_right one (Nat.pos_of_ne_zero hne)
      omega
    rw [hzero]
    decide
  · have hfraction := v.fraction_lt
    rw [ulps_of_exponent_pos hexponent] at hulps
    rcases Nat.lt_or_ge e 1074 with hsmall | hlarge
    · have hscale : 2 ^ 52 + v.fraction = n * 2 ^ (1074 - e) := by
        apply Nat.eq_of_mul_eq_mul_right (show 0 < 2 ^ e by positivity)
        rw [hulps, one_eq e hsmall.le]
        ring
      have hpow : 1 ≤ 2 ^ (1074 - e) := Nat.one_le_two_pow
      have hle : n * 1 ≤ n * 2 ^ (1074 - e) := Nat.mul_le_mul_left n hpow
      exact roundNat_of_lt (by omega)
    · have hscale : n = (2 ^ 52 + v.fraction) * 2 ^ (e - 1074) := by
        apply Nat.eq_of_mul_eq_mul_right one_pos
        rw [← hulps, one, Nat.mul_assoc, ← pow_add, Nat.sub_add_cancel hlarge]
      rw [hscale]
      exact roundNat_shift _ (Nat.le_add_right _ _) (by omega)

/-- A non-negative integral value below `2 ^ 64` is the value of its
integer. -/
theorem ofNat_of_ulps {v : Binary64} (hsign : v.isSignNegative = false)
    {n : Nat} (hn : n < 2 ^ 64) (hulps : v.ulps = n * one) : ofNat n = v := by
  apply ext_ulps (isSignNegative_ofNat hn) hsign
  rw [ulps_ofNat hn, roundNat_of_ulps hulps, hulps]

/-- Rounding up gives the smallest whole number of units that is not below
the size. -/
theorem ulps_ceil {v : Binary64} (hsign : v.isSignNegative = false)
    (hfinite : v.isFinite = true) :
    v.ceil.isSignNegative = false ∧ v.ceil.isFinite = true ∧
      ∃ n, v.ceil.ulps = n * one ∧ v.ulps ≤ n * one ∧
        n * one < v.ulps + one := by
  have hone := one_pos
  rw [ceil]
  by_cases hlarge : v.biasedExponent ≥ 1075
  · rw [if_pos hlarge]
    have hwhole : v.hasFraction = false := by
      rw [hasFraction, if_neg (by omega), Nat.sub_eq_zero_of_le hlarge]
      simp [Nat.mod_one]
    obtain ⟨n, hn⟩ := (hasFraction_eq_false_iff v).mp hwhole
    rw [Nat.mul_comm] at hn
    exact ⟨hsign, hfinite, n, hn, hn.le, by omega⟩
  · rw [if_neg hlarge, hsign]
    simp only [Bool.false_eq_true, if_false]
    have hulps : v.ulps < 2 ^ 53 * one := by
      have hlt := ulps_lt_of_exponent_le
        (show v.biasedExponent ≤ 1075 by omega)
      rw [one]
      have hpow : 2 ^ 52 * 2 ^ 1075 = 2 ^ 53 * 2 ^ 1074 := by
        rw [← pow_add, ← pow_add]
      omega
    have hdiv := Nat.div_add_mod v.ulps one
    have hmod := Nat.mod_lt v.ulps hone
    have hquotient : v.ulps / one < 2 ^ 53 :=
      (Nat.div_lt_iff_lt_mul hone).mpr hulps
    have hround : ∀ n ≤ 2 ^ 53, (ofNat n).ulps = n * one := by
      intro n hn
      rw [ulps_ofNat (by omega)]
      rcases Nat.lt_or_eq_of_le hn with hlt | heq
      · rw [roundNat_of_lt hlt]
      · rw [heq, roundNat_two_pow_53]
    have hdvd := hasFraction_eq_false_iff v
    rw [Nat.dvd_iff_mod_eq_zero] at hdvd
    rw [wholePart_eq, Nat.mul_comm] at *
    by_cases hfraction : v.hasFraction = true
    · rw [if_pos hfraction]
      have hrest : v.ulps % one ≠ 0 := by
        intro hzero
        rw [hdvd.mpr hzero] at hfraction
        exact absurd hfraction (by decide)
      refine ⟨isSignNegative_ofNat (by omega), isFinite_ofNat (by omega),
        _, hround _ (by omega), ?_, ?_⟩
      · rw [Nat.add_mul]
        omega
      · rw [Nat.add_mul]
        omega
    · rw [if_neg hfraction]
      have hrest := hdvd.mp (by simpa using hfraction)
      refine ⟨isSignNegative_ofNat (by omega), isFinite_ofNat (by omega),
        _, hround _ (by omega), ?_, ?_⟩
      · omega
      · omega

end Integral
end Binary64

end Hegel
