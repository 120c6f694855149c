/-
A float as a quotient of integers.  The odd part of the significand is shifted
into place in 128 bits; the shift itself is checked, the bits that it drops are
not.
-/
import Hegel.Lib.Binary64
import Mathlib.Data.Nat.Factorization.Basic
import Mathlib.Data.Rat.Lemmas

namespace Hegel

/-- The trailing zeros of a 128-bit number, looked for in that many bits. -/
def trailingZerosFrom : Nat → Nat → Nat
  | 0, _ => 0
  | bits + 1, n =>
      if n % 2 = 1 then 0 else trailingZerosFrom bits (n / 2) + 1

def trailingZeros (n : Nat) : Nat :=
  trailingZerosFrom 128 n

/-- A shift in 128 bits.  Only the amount is checked. -/
def checkedShl (n shift : Nat) : Option Nat :=
  if shift < 128 then some (n * 2 ^ shift % 2 ^ 128) else none

namespace Binary64

/-- The rational that a finite datum with a clear sign stands for. -/
def toRat (v : Binary64) : ℚ :=
  v.ulps / one

/-- The significand and the power of two that it is multiplied with. -/
def decompose (v : Binary64) : Nat × Int :=
  let biasedExp : Nat := v.bits / 2 ^ 52 % 2 ^ 11
  let mantissaBits : Nat := v.bits % 2 ^ 52
  if biasedExp = 0 then (mantissaBits, -1074)
  else (2 ^ 52 ||| mantissaBits, (biasedExp : Int) - 1023 - 52)

end Binary64

/-- A positive finite float as a numerator and a denominator. -/
def asIntegerRatio (v : Binary64) : Option (Nat × Nat) :=
  let (num, exp) := v.decompose
  let trailing := trailingZeros num
  let num := num / 2 ^ trailing
  let exp := exp + trailing
  if exp ≥ 0 then (checkedShl num exp.toNat).map fun shifted => (shifted, 1)
  else (checkedShl 1 (-exp).toNat).map fun n => (num, n)

section Decomposition

open Binary64

theorem trailingZerosFrom_spec {bits n : Nat} (hpos : 0 < n)
    (hlt : n < 2 ^ bits) :
    ∃ odd, Odd odd ∧ n = odd * 2 ^ trailingZerosFrom bits n := by
  induction bits generalizing n with
  | zero => omega
  | succ bits ih =>
      rw [trailingZerosFrom]
      by_cases hodd : n % 2 = 1
      · rw [if_pos hodd]
        exact ⟨n, Nat.odd_iff.mpr hodd, (Nat.mul_one n).symm⟩
      · rw [if_neg hodd]
        obtain ⟨odd, hoddness, hhalf⟩ := ih (n := n / 2) (by omega) (by omega)
        refine ⟨odd, hoddness, ?_⟩
        rw [Nat.pow_succ, ← Nat.mul_assoc, ← hhalf]
        omega

/-- The value is the significand times its power of two. -/
theorem toRat_decompose {v : Binary64} (hsign : v.isSignNegative = false) :
    v.toRat = v.decompose.1 * (2 : ℚ) ^ v.decompose.2 ∧
      v.decompose.1 < 2 ^ 53 ∧ (0 < v.bits → 0 < v.decompose.1) := by
  rw [isSignNegative_eq_false_iff] at hsign
  have hexponent : v.bits / 2 ^ 52 % 2 ^ 11 = v.biasedExponent := by
    rw [biasedExponent, magnitude_of_nonneg hsign]
    omega
  have hfraction : v.bits % 2 ^ 52 < 2 ^ 52 := v.fraction_lt
  have hunit : ((one : ℕ) : ℚ) = (2 : ℚ) ^ (1074 : ℤ) := by
    rw [one, Nat.cast_pow]
    rfl
  rw [decompose, hexponent, toRat, hunit]
  by_cases hzero : v.biasedExponent = 0
  · rw [if_pos hzero, ulps_of_exponent_zero hzero]
    refine ⟨?_, by dsimp only; omega, ?_⟩
    · rw [zpow_neg]
      rfl
    · intro hpos
      have hbits := v.magnitude_eq
      rw [magnitude_of_nonneg hsign, hzero, fraction] at hbits
      dsimp only
      omega
  · obtain ⟨e, he⟩ := Nat.exists_eq_succ_of_ne_zero hzero
    have hor : 2 ^ 52 ||| v.bits % 2 ^ 52 = 2 ^ 52 + v.fraction := by
      have hsum := Nat.two_pow_add_eq_or_of_lt hfraction 1
      rw [Nat.mul_one] at hsum
      exact hsum.symm
    rw [if_neg hzero, hor]
    have hlt := v.fraction_lt
    refine ⟨?_, by dsimp only; omega, fun _ => by dsimp only; omega⟩
    rw [ulps_of_exponent_pos he, Nat.cast_mul, Nat.cast_pow, mul_div_assoc,
      Nat.cast_ofNat, ← zpow_natCast, ← zpow_sub₀ (by norm_num), he]
    congr 2
    omega

/-- A positive float is an odd number times a power of two, and these are what
the quotient is made of. -/
theorem asIntegerRatio_eq {v : Binary64} (hsign : v.isSignNegative = false)
    (hpos : 0 < v.bits) :
    ∃ (odd : Nat) (exp : Int), Odd odd ∧ odd < 2 ^ 53 ∧
      v.toRat = odd * (2 : ℚ) ^ exp ∧
      asIntegerRatio v =
        if exp ≥ 0 then
          (checkedShl odd exp.toNat).map fun shifted => (shifted, 1)
        else (checkedShl 1 (-exp).toNat).map fun n => (odd, n) := by
  obtain ⟨hvalue, hlt, hnonzero⟩ := toRat_decompose hsign
  have hwide : v.decompose.1 < 2 ^ 128 := by omega
  obtain ⟨odd, hodd, hnum⟩ := trailingZerosFrom_spec (hnonzero hpos) hwide
  have hpow : 0 < 2 ^ trailingZeros v.decompose.1 := by positivity
  have hquotient :
      v.decompose.1 / 2 ^ trailingZeros v.decompose.1 = odd := by
    rw [Nat.div_eq_iff_eq_mul_left hpow ⟨odd, by
      rw [Nat.mul_comm]
      exact hnum⟩]
    exact hnum
  refine ⟨odd, v.decompose.2 + trailingZeros v.decompose.1, hodd, ?_, ?_, ?_⟩
  · have hle : odd * 1 ≤ odd * 2 ^ trailingZeros v.decompose.1 :=
      Nat.mul_le_mul_left odd hpow
    rw [trailingZeros] at hle
    omega
  · rw [hvalue, zpow_add₀ (by norm_num), zpow_natCast]
    have hcast : (v.decompose.1 : ℚ) =
        odd * (2 : ℚ) ^ trailingZeros v.decompose.1 := by
      exact_mod_cast hnum
    rw [hcast, mul_assoc, mul_comm ((2 : ℚ) ^ v.decompose.2)]
  · rw [asIntegerRatio]
    dsimp only
    rw [hquotient]

end Decomposition

section Exactness

open Binary64

theorem positive_of_zero_lt {v : Binary64} (hpos : zero.lt v = true) :
    v.isSignNegative = false ∧ 0 < v.bits := by
  rw [lt, Bool.and_eq_true, Bool.and_eq_true, decide_eq_true_eq,
    show zero.orderKey = 0 by decide, orderKey] at hpos
  cases hsign : v.isSignNegative with
  | false =>
      rw [hsign] at hpos
      rw [isSignNegative_eq_false_iff] at hsign
      have hmagnitude := magnitude_of_nonneg hsign
      simp only [Bool.false_eq_true, if_false] at hpos
      exact ⟨rfl, by omega⟩
  | true =>
      rw [hsign] at hpos
      simp only [if_true] at hpos
      omega

/-- What is asked of the quotient: it is the value, and it is missing exactly
when the reduced numerator or denominator takes more than 128 bits. -/
structure ExactRatio (v : Binary64) : Prop where
  value : ∀ m n, asIntegerRatio v = some (m, n) → (m : ℚ) / n = v.toRat
  missing : asIntegerRatio v = none ↔
    2 ^ 128 ≤ v.toRat.num ∨ 2 ^ 128 ≤ v.toRat.den

variable {v : Binary64} {odd shift : Nat}

/-- A whole value is exact unless its bits were dropped. -/
theorem exactRatio_whole (hodd : Odd odd)
    (hvalue : v.toRat = ((odd * 2 ^ shift : Nat) : ℚ))
    (hratio : asIntegerRatio v =
      (checkedShl odd shift).map fun shifted => (shifted, 1)) :
    ExactRatio v ↔ odd * 2 ^ shift < 2 ^ 128 ∨ 128 ≤ shift := by
  have hnum : v.toRat.num = odd * 2 ^ shift := by
    rw [hvalue, Rat.num_natCast]
    push_cast
    rfl
  have hden : v.toRat.den = 1 := by
    rw [hvalue, Rat.den_natCast]
  have hpositive := hodd.pos
  rw [checkedShl] at hratio
  by_cases hshift : shift < 128
  · rw [if_pos hshift, Option.map_some] at hratio
    constructor
    · intro hexact
      left
      have hquotient := hexact.value _ _ hratio
      rw [Nat.cast_one, div_one, hvalue, Nat.cast_inj] at hquotient
      rw [← hquotient]
      exact Nat.mod_lt _ (by decide)
    · rintro (hlt | hge)
      · constructor
        · intro m n heq
          rw [hratio, Option.some.injEq, Prod.mk.injEq] at heq
          rw [← heq.1, ← heq.2, Nat.mod_eq_of_lt hlt, Nat.cast_one, div_one,
            hvalue]
        · rw [hratio, hnum, hden]
          constructor
          · intro hnone
            cases hnone
          · rintro (hbig | hbig)
            · exact absurd hlt (not_lt.mpr (by exact_mod_cast hbig))
            · exact absurd hbig (by decide)
      · exact absurd hge (not_le.mpr hshift)
  · rw [if_neg hshift, Option.map_none] at hratio
    refine iff_of_true ?_ (.inr (not_lt.mp hshift))
    constructor
    · intro m n heq
      rw [hratio] at heq
      cases heq
    · refine iff_of_true hratio (.inl ?_)
      have hpow : 2 ^ 128 ≤ 2 ^ shift :=
        Nat.pow_le_pow_right (by decide) (not_lt.mp hshift)
      have hle : 2 ^ shift ≤ odd * 2 ^ shift :=
        Nat.le_mul_of_pos_left _ hpositive
      rw [hnum]
      exact_mod_cast hpow.trans hle

/-- A fraction is always exact: its numerator is short. -/
theorem exactRatio_fraction (hodd : Odd odd) (hlt : odd < 2 ^ 53)
    (hvalue : v.toRat = (odd : ℚ) / (2 ^ shift : Nat))
    (hratio : asIntegerRatio v =
      (checkedShl 1 shift).map fun n => (odd, n)) :
    ExactRatio v := by
  have hcoprime : Nat.Coprime odd (2 ^ shift) :=
    (Nat.coprime_two_right.mpr hodd).pow_right shift
  have hcast : v.toRat = ((odd : ℤ) : ℚ) / ((2 ^ shift : Nat) : ℤ) := by
    rw [hvalue, Int.cast_natCast, Int.cast_natCast]
  have hunit : (0 : ℤ) < (2 ^ shift : Nat) := by positivity
  have hnum : v.toRat.num = odd := by
    rw [hcast]
    exact Rat.num_div_eq_of_coprime hunit hcoprime
  have hden : v.toRat.den = 2 ^ shift := by
    have hden := Rat.den_div_eq_of_coprime hunit
      (show Nat.Coprime (odd : ℤ).natAbs _ from hcoprime)
    rw [← hcast] at hden
    exact_mod_cast hden
  rw [checkedShl, Nat.one_mul] at hratio
  by_cases hshift : shift < 128
  · have hpow : 2 ^ shift < 2 ^ 128 :=
      Nat.pow_lt_pow_right (by decide) hshift
    rw [if_pos hshift, Option.map_some, Nat.mod_eq_of_lt hpow] at hratio
    constructor
    · intro m n heq
      rw [hratio, Option.some.injEq, Prod.mk.injEq] at heq
      rw [← heq.1, ← heq.2, hvalue]
    · rw [hratio, hnum, hden]
      constructor
      · intro hnone
        cases hnone
      · rintro (hbig | hbig)
        · have hbig' : 2 ^ 128 ≤ odd := by exact_mod_cast hbig
          omega
        · exact absurd hpow (not_lt.mpr hbig)
  · rw [if_neg hshift, Option.map_none] at hratio
    constructor
    · intro m n heq
      rw [hratio] at heq
      cases heq
    · refine iff_of_true hratio (.inr ?_)
      rw [hden]
      exact Nat.pow_le_pow_right (by decide) (not_lt.mp hshift)

/-- The multiples of a power of two among the odd numbers times powers. -/
theorem dvd_odd_mul_iff (hodd : Odd odd) :
    2 ^ 128 ∣ odd * 2 ^ shift ↔ 128 ≤ shift := by
  have hcoprime : Nat.Coprime (2 ^ 128) odd :=
    (Nat.coprime_two_left.mpr hodd).pow_left 128
  rw [hcoprime.dvd_mul_left, Nat.pow_dvd_pow_iff_le_right (by decide)]

/-- The quotient is exact, and missing only where it must be, unless the value
has more than 128 bits and is no multiple of the power that 128 bits reach up
to. -/
theorem asIntegerRatio_exact_iff (v : Binary64)
    (hpos : Binary64.zero.lt v = true) :
    ((∀ m n, asIntegerRatio v = some (m, n) → (m : ℚ) / n = v.toRat) ∧
      (asIntegerRatio v = none ↔
        2 ^ 128 ≤ v.toRat.num ∨ 2 ^ 128 ≤ v.toRat.den)) ↔
      v.toRat < 2 ^ 128 ∨ ∃ k : Nat, v.toRat = k * 2 ^ 128 := by
  have hexact : ((∀ m n, asIntegerRatio v = some (m, n) →
      (m : ℚ) / n = v.toRat) ∧ (asIntegerRatio v = none ↔
        2 ^ 128 ≤ v.toRat.num ∨ 2 ^ 128 ≤ v.toRat.den)) ↔ ExactRatio v :=
    ⟨fun h => ⟨h.1, h.2⟩, fun h => ⟨h.value, h.missing⟩⟩
  rw [hexact]
  obtain ⟨hsign, hbits⟩ := positive_of_zero_lt hpos
  obtain ⟨odd, exp, hodd, hlt, hvalue, hratio⟩ :=
    asIntegerRatio_eq hsign hbits
  by_cases hexp : exp ≥ 0
  · obtain ⟨shift, rfl⟩ := Int.eq_ofNat_of_zero_le hexp
    rw [if_pos hexp, Int.toNat_natCast] at hratio
    have hwhole : v.toRat = ((odd * 2 ^ shift : Nat) : ℚ) := by
      rw [hvalue, zpow_natCast]
      push_cast
      rfl
    rw [exactRatio_whole hodd hwhole hratio, ← dvd_odd_mul_iff hodd, hwhole]
    refine or_congr (by exact_mod_cast Iff.rfl) ?_
    constructor
    · rintro ⟨k, hk⟩
      refine ⟨k, ?_⟩
      rw [hk, Nat.mul_comm]
      push_cast
      rfl
    · rintro ⟨k, hk⟩
      refine ⟨k, ?_⟩
      rw [Nat.mul_comm (2 ^ 128)]
      exact_mod_cast hk
  · obtain ⟨shift, hshift⟩ := Int.eq_ofNat_of_zero_le
      (show 0 ≤ -exp by omega)
    rw [if_neg hexp, hshift, Int.toNat_natCast] at hratio
    have hfraction : v.toRat = (odd : ℚ) / (2 ^ shift : Nat) := by
      rw [hvalue, show exp = -(shift : ℤ) by omega, zpow_neg, zpow_natCast,
        div_eq_mul_inv]
      push_cast
      rfl
    refine iff_of_true
      (exactRatio_fraction hodd hlt hfraction hratio) (.inl ?_)
    have hone : (1 : ℚ) ≤ (2 ^ shift : Nat) := by
      exact_mod_cast Nat.one_le_two_pow
    have hsmall : (odd : ℚ) < 2 ^ 128 := by
      exact_mod_cast hlt.trans (by decide)
    calc v.toRat = (odd : ℚ) / (2 ^ shift : Nat) := hfraction
      _ ≤ odd := div_le_self (Nat.cast_nonneg odd) hone
      _ < 2 ^ 128 := hsmall

/-- Two to the power of 128 and one bit more, at the other end of the
significand. -/
def overlong : Binary64 :=
  ofBits (1151 * 2 ^ 52 + 1)

/-- The leading bit is dropped. -/
theorem asIntegerRatio_inexact :
    Binary64.zero.lt overlong = true ∧ overlong.isFinite = true ∧
      ¬∀ m n, asIntegerRatio overlong = some (m, n) →
        (m : ℚ) / n = overlong.toRat := by
  refine ⟨by decide, by decide, ?_⟩
  intro hexact
  have hratio : asIntegerRatio overlong = some (2 ^ 76, 1) := by
    decide +kernel
  have hquotient := hexact _ _ hratio
  have hulps : overlong.ulps = (2 ^ 128 + 2 ^ 76) * one := by
    decide +kernel
  rw [Nat.cast_one, div_one, toRat, hulps, Nat.cast_mul,
    mul_div_cancel_right₀ _ (Nat.cast_ne_zero.mpr Binary64.one_pos.ne'),
    Nat.cast_inj] at hquotient
  exact absurd hquotient (by decide)

/-- Three quarters are three over four. -/
theorem asIntegerRatio_exact_quarters :
    let v := ofBits 4604930618986332160
    asIntegerRatio v = some (3, 4) ∧
      (((∀ m n, asIntegerRatio v = some (m, n) → (m : ℚ) / n = v.toRat) ∧
        (asIntegerRatio v = none ↔
          2 ^ 128 ≤ v.toRat.num ∨ 2 ^ 128 ≤ v.toRat.den)) ↔
        v.toRat < 2 ^ 128 ∨ ∃ k : Nat, v.toRat = k * 2 ^ 128) := by
  intro v
  exact ⟨by decide +kernel, asIntegerRatio_exact_iff v (by decide +kernel)⟩

end Exactness

end Hegel
