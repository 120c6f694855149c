/-
The lexicographic index of a non-negative float.  Small integers are their own
index; every other float is tagged in bit 63 and indexed by an exponent ranked
by distance from one and by its fraction bits in reversed order.
-/
import Hegel.Lib.Binary64

namespace Hegel

/-- Rank a biased exponent: exponents from 1023 up come first, then the ones
below it going down. -/
def encodeExponent (biasedExp : Nat) : Nat :=
  if biasedExp = 2047 then 2047
  else if biasedExp ≥ 1023 then biasedExp - 1023
  else 2046 - biasedExp

/-- The biased exponent of a rank. -/
def decodeExponent (enc : Nat) : Nat :=
  if enc = 2047 then 2047
  else if enc ≤ 1023 then enc + 1023
  else 2046 - enc

/-- The lowest `n` bits of a number in reversed order. -/
def reverseBitsN (v : Nat) : Nat → Nat
  | 0 => 0
  | n + 1 => v % 2 * 2 ^ n + reverseBitsN (v / 2) n

/-- Reorder the fraction bits so that low-denominator fractions come first. -/
def updateMantissa (unbiasedExp : Int) (mantissa : Nat) : Nat :=
  if unbiasedExp ≤ 0 then reverseBitsN mantissa 52
  else if unbiasedExp ≤ 51 then
    let nFrac := (52 - unbiasedExp).toNat
    let frac := mantissa &&& (2 ^ nFrac - 1)
    (mantissa ^^^ frac) ||| reverseBitsN frac nFrac
  else mantissa

/-- Whether a float is an integer below `2 ^ 56` with a clear sign. -/
def isSimpleFloat (v : Binary64) : Bool :=
  if v.isSignNegative || !v.isFinite then false
  else
    let i := v.toNat
    (Binary64.ofNat i).numEq v && decide (i < 2 ^ 56)

/-- The index of a non-negative float. -/
def floatToIndex (v : Binary64) : Nat :=
  if isSimpleFloat v then v.toNat
  else
    let biasedExp : Nat := v.bits / 2 ^ 52 % 2 ^ 11
    let mantissa := v.bits % 2 ^ 52
    let unbiasedExp : Int := biasedExp - 1023
    2 ^ 63 ||| encodeExponent biasedExp * 2 ^ 52 |||
      updateMantissa unbiasedExp mantissa

/-- The float of an index below `2 ^ 64`. -/
def indexToFloat (i : Nat) : Binary64 :=
  if i / 2 ^ 63 = 0 then Binary64.ofNat (i % 2 ^ 56)
  else
    let biasedExp : Nat := decodeExponent (i / 2 ^ 52 % 2 ^ 11)
    let mantissaEnc := i % 2 ^ 52
    let unbiasedExp : Int := biasedExp - 1023
    Binary64.ofBits
      (biasedExp * 2 ^ 52 ||| updateMantissa unbiasedExp mantissaEnc)

/-- The number in `[lo, hi]` whose `n` bits reversed are smallest: the halved
even candidates win as long as there are any. -/
def minReversedInRange (lo hi : Nat) : Nat → Nat
  | 0 => 0
  | n + 1 =>
      let kLo := (lo + 1) / 2
      let kHi := hi / 2
      if kLo ≤ kHi then minReversedInRange kLo kHi n * 2 else lo

/-- The float in `[lo, hi]` with the smallest index, both ends finite and
positive. -/
def simplestInRange (lo hi : Binary64) : Binary64 :=
  let c := lo.ceil
  if c.le hi && c.lt (Binary64.ofNat (2 ^ 56)) then c
  else
    let eLo : Nat := lo.bits / 2 ^ 52
    let eHi : Nat := hi.bits / 2 ^ 52
    let mLo : Nat := lo.bits % 2 ^ 52
    let mHi : Nat := hi.bits % 2 ^ 52
    let (e, mMin, mMax) : Nat × Nat × Nat :=
      if eLo ≥ 1023 then
        (eLo, mLo, if eHi = eLo then mHi else 2 ^ 52 - 1)
      else (eHi, if eLo = eHi then mLo else 0, mHi)
    let unbiased : Int := e - 1023
    let mBest :=
      if unbiased ≥ 52 then mMin
      else
        let nFrac := if unbiased ≤ 0 then 52 else (52 - unbiased).toNat
        let lowMask := 2 ^ nFrac - 1
        let h := mMin / 2 ^ nFrac
        h * 2 ^ nFrac |||
          minReversedInRange (mMin &&& lowMask) (mMax &&& lowMask) nFrac
    Binary64.ofBits (e * 2 ^ 52 ||| mBest)

end Hegel
