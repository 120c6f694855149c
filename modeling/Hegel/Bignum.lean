/-
Byte conversions of arbitrary-precision integers.  Integers are stored as
minimal two's-complement little-endian bytes; the magnitude's own bytes come
from the backing library, of which only the documented behaviour is used.
-/
import Hegel.Lib.LittleEndian

namespace Hegel

/-- The backing library's byte conversions of an unsigned integer: minimal
little-endian bytes one way, any little-endian bytes the other way. -/
class UBigBytes where
  toLeBytes : Nat → List UInt8
  fromLeBytes : List UInt8 → Nat
  ofLeBytes_toLeBytes : ∀ n, ofLeBytes (toLeBytes n) = n
  toLeBytes_minimal : ∀ n, (toLeBytes n).getLast? ≠ some 0
  fromLeBytes_eq : ∀ bytes, fromLeBytes bytes = ofLeBytes bytes

/-- The digits in base 256 behave as the library does. -/
@[reducible]
def UBigBytes.digits : UBigBytes where
  toLeBytes n := (Nat.digits 256 n).map UInt8.ofNat
  fromLeBytes := ofLeBytes
  ofLeBytes_toLeBytes n := by
    have hdigits : ((Nat.digits 256 n).map UInt8.ofNat).map UInt8.toNat =
        Nat.digits 256 n := by
      rw [List.map_map]
      apply LittleEndian.map_eq_self
      intro digit hdigit
      exact UInt8.toNat_ofNat_of_lt'
        (Nat.digits_lt_base (by decide) hdigit)
    rw [ofLeBytes, hdigits, Nat.ofDigits_digits]
  toLeBytes_minimal n := by
    intro hlast
    rw [List.getLast?_map, Option.map_eq_some_iff] at hlast
    obtain ⟨digit, hdigit, hzero⟩ := hlast
    obtain ⟨hne, rfl⟩ := List.mem_getLast?_eq_getLast hdigit
    have hlt := Nat.digits_lt_base (b := 256) (by decide)
      (List.getLast_mem hne)
    have hnat := congrArg UInt8.toNat hzero
    rw [UInt8.toNat_ofNat_of_lt' hlt] at hnat
    exact Nat.getLast_digit_ne_zero 256 (m := n)
      (fun h => hne (by rw [h]; simp)) hnat
  fromLeBytes_eq _ := rfl

/-- Complement every byte and carry the increment along. -/
def twosComplementLe (carry : Bool) : List UInt8 → List UInt8
  | [] => []
  | b :: rest =>
      let sum := (~~~b).toNat + carry.toNat
      UInt8.ofNat (sum % 256) :: twosComplementLe (decide (256 ≤ sum)) rest

/-- Whether bit `0x80` of a byte is set. -/
def topBit (b : UInt8) : Bool :=
  decide (128 ≤ b.toNat)

/-- Drop redundant sign bytes from a reversed negative number. -/
def trimSignBytes : List UInt8 → List UInt8
  | last :: b :: rest =>
      if last = 0xFF ∧ topBit b then trimSignBytes (b :: rest)
      else last :: b :: rest
  | bytes => bytes

section Conversions

variable [UBigBytes]

/-- Minimal two's-complement little-endian bytes. -/
def toSignedBytesLe (v : Int) : List UInt8 :=
  if v = 0 then [0]
  else
    let mag := UBigBytes.toLeBytes v.natAbs
    let bytes :=
      if (mag.getLast?.map topBit).getD false then mag ++ [0] else mag
    if v < 0 then
      (trimSignBytes (twosComplementLe true bytes).reverse).reverse
    else bytes

/-- Decode two's-complement little-endian bytes of any length. -/
def fromSignedBytesLe (bytes : List UInt8) : Int :=
  match bytes.getLast? with
  | none => 0
  | some last =>
      if topBit last then
        -(UBigBytes.fromLeBytes (twosComplementLe true bytes) : Int)
      else UBigBytes.fromLeBytes bytes

end Conversions

/-- The integer two's-complement bytes stand for. -/
def signedValue (bytes : List UInt8) : Int :=
  if 2 * ofLeBytes bytes < 256 ^ bytes.length then ofLeBytes bytes
  else (ofLeBytes bytes : Int) - (256 ^ bytes.length : Nat)

@[simp] theorem length_twosComplementLe (carry : Bool) (bytes : List UInt8) :
    (twosComplementLe carry bytes).length = bytes.length := by
  induction bytes generalizing carry with
  | nil => rfl
  | cons b rest ih => rw [twosComplementLe, List.length_cons, ih,
      List.length_cons]

theorem toNat_ofNat_mod (n : Nat) : (UInt8.ofNat (n % 256)).toNat = n % 256 :=
  UInt8.toNat_ofNat_of_lt' (Nat.mod_lt n (by decide))

theorem toNat_complement (b : UInt8) : (~~~b).toNat = 255 - b.toNat := by
  rw [UInt8.toNat_not]
  rfl

/-- Without a carry the complement and the number fill every byte. -/
theorem ofLeBytes_twosComplementLe_false (bytes : List UInt8) :
    ofLeBytes (twosComplementLe false bytes) + ofLeBytes bytes + 1 =
      256 ^ bytes.length := by
  induction bytes with
  | nil => rfl
  | cons b rest ih =>
      have hlt := b.toNat_lt
      have hsum : (~~~b).toNat + false.toNat = 255 - b.toNat := by
        rw [toNat_complement]
        rfl
      have hcarry : decide (256 ≤ 255 - b.toNat) = false :=
        decide_eq_false (by omega)
      rw [twosComplementLe, hsum, hcarry, LittleEndian.ofLeBytes_cons,
        LittleEndian.ofLeBytes_cons, toNat_ofNat_mod,
        Nat.mod_eq_of_lt (show 255 - b.toNat < 256 by omega),
        List.length_cons, pow_succ]
      omega

/-- With a carry a positive number is negated. -/
theorem ofLeBytes_twosComplementLe_true {bytes : List UInt8}
    (hpos : 0 < ofLeBytes bytes) :
    ofLeBytes (twosComplementLe true bytes) + ofLeBytes bytes =
      256 ^ bytes.length := by
  induction bytes with
  | nil => exact absurd hpos (Nat.lt_irrefl 0)
  | cons b rest ih =>
      have hlt := b.toNat_lt
      have hsum : (~~~b).toNat + true.toNat = 256 - b.toNat := by
        rw [toNat_complement, Bool.toNat_true]
        omega
      rw [LittleEndian.ofLeBytes_cons] at hpos
      rw [twosComplementLe, hsum, LittleEndian.ofLeBytes_cons,
        LittleEndian.ofLeBytes_cons, toNat_ofNat_mod, List.length_cons,
        pow_succ]
      by_cases hzero : b.toNat = 0
      · have hrest := ih (by omega)
        rw [hzero, decide_eq_true (show 256 ≤ 256 - 0 by omega)]
        omega
      · have hrest := ofLeBytes_twosComplementLe_false rest
        rw [decide_eq_false (show ¬256 ≤ 256 - b.toNat by omega),
          Nat.mod_eq_of_lt (show 256 - b.toNat < 256 by omega)]
        omega

theorem ofLeBytes_concat (front : List UInt8) (last : UInt8) :
    ofLeBytes (front ++ [last]) =
      ofLeBytes front + 256 ^ front.length * last.toNat := by
  rw [LittleEndian.ofLeBytes_append, LittleEndian.ofLeBytes_cons]
  rfl

/-- The top bit of the last byte is the sign. -/
theorem topBit_eq_true_iff (front : List UInt8) (last : UInt8) :
    topBit last = true ↔ 256 ^ (front ++ [last]).length ≤
      2 * ofLeBytes (front ++ [last]) := by
  have hfront := LittleEndian.ofLeBytes_lt front
  rw [topBit, decide_eq_true_eq, ofLeBytes_concat, List.length_append,
    List.length_singleton, pow_succ]
  generalize 256 ^ front.length = unit at *
  constructor
  · intro htop
    have hmul : unit * 128 ≤ unit * last.toNat := Nat.mul_le_mul_left _ htop
    omega
  · intro hle
    by_contra htop
    have hmul : unit * last.toNat ≤ unit * 127 :=
      Nat.mul_le_mul_left _ (by omega)
    omega

/-- Decoding reads the bytes as a two's-complement number. -/
theorem fromSignedBytesLe_eq [UBigBytes] (bytes : List UInt8) :
    fromSignedBytesLe bytes = signedValue bytes := by
  induction bytes using List.reverseRecOn with
  | nil => rfl
  | append_singleton front last _ =>
      have htop := topBit_eq_true_iff front last
      rw [fromSignedBytesLe, List.getLast?_concat, signedValue,
        UBigBytes.fromLeBytes_eq, UBigBytes.fromLeBytes_eq]
      by_cases hsign : topBit last = true
      · have hlarge := htop.mp hsign
        have hpos : 0 < 256 ^ (front ++ [last]).length :=
          Nat.pow_pos (by decide)
        have hneg := @ofLeBytes_twosComplementLe_true (front ++ [last])
          (by omega)
        simp only [hsign, if_true]
        rw [if_neg (by omega)]
        omega
      · simp only [hsign]
        rw [if_neg (by simp), if_pos (by rw [htop] at hsign; omega)]

/-- A redundant sign byte does not change the number. -/
theorem signedValue_trimSignBytes (bytes : List UInt8) :
    signedValue (trimSignBytes bytes).reverse =
      signedValue bytes.reverse := by
  induction bytes with
  | nil => rfl
  | cons last rest ih =>
      cases rest with
      | nil => rfl
      | cons b rest =>
          rw [trimSignBytes]
          split
          case isFalse => rfl
          case isTrue hredundant =>
            obtain ⟨hlast, htop⟩ := hredundant
            have hsign := (topBit_eq_true_iff rest.reverse b).mp htop
            have hwide := ofLeBytes_concat (rest.reverse ++ [b]) last
            rw [hlast, show (0xFF : UInt8).toNat = 255 from rfl] at hwide
            rw [ih, List.reverse_cons, List.reverse_cons, List.reverse_cons,
              signedValue, signedValue, hlast, hwide,
              @List.length_append _ (rest.reverse ++ [b]),
              List.length_singleton, pow_succ, if_neg (by omega),
              if_neg (by omega)]
            omega

section RoundTrip

variable [UBigBytes]

/-- The magnitude's bytes with room for the sign bit. -/
theorem signBytes_bounds {n : Nat} (hn : 0 < n) :
    let mag := UBigBytes.toLeBytes n
    let bytes := if (mag.getLast?.map topBit).getD false then mag ++ [0] else mag
    ofLeBytes bytes = n ∧ 2 * n < 256 ^ bytes.length := by
  have hvalue := UBigBytes.ofLeBytes_toLeBytes n
  simp only []
  generalize UBigBytes.toLeBytes n = mag at *
  induction mag using List.reverseRecOn with
  | nil =>
      rw [← hvalue] at hn
      exact absurd hn (Nat.lt_irrefl 0)
  | append_singleton front last _ =>
      have htop := topBit_eq_true_iff front last
      have hlt := LittleEndian.ofLeBytes_lt (front ++ [last])
      rw [List.getLast?_concat, Option.map_some, Option.getD_some]
      by_cases hsign : topBit last = true
      · have hlength : (front ++ [last] ++ [0]).length =
            (front ++ [last]).length + 1 := List.length_append
        rw [if_pos hsign, ofLeBytes_concat, hvalue, hlength, pow_succ]
        rw [hvalue] at hlt
        constructor
        · exact Nat.add_zero n
        · omega
      · rw [if_neg hsign]
        rw [htop, hvalue] at hsign
        exact ⟨hvalue, by omega⟩

theorem signedValue_toSignedBytesLe (v : Int) :
    signedValue (toSignedBytesLe v) = v := by
  by_cases hzero : v = 0
  · rw [toSignedBytesLe, if_pos hzero, hzero]
    decide
  · obtain ⟨hvalue, hbound⟩ := signBytes_bounds (n := v.natAbs) (by omega)
    rw [toSignedBytesLe, if_neg hzero]
    simp only [] at hvalue hbound ⊢
    generalize (if ((UBigBytes.toLeBytes v.natAbs).getLast?.map topBit).getD
      false then UBigBytes.toLeBytes v.natAbs ++ [0]
      else UBigBytes.toLeBytes v.natAbs) = bytes at *
    by_cases hneg : v < 0
    · have hcomplement := ofLeBytes_twosComplementLe_true
        (show 0 < ofLeBytes bytes by omega)
      rw [if_pos hneg, signedValue_trimSignBytes, List.reverse_reverse,
        signedValue, length_twosComplementLe, if_neg (by omega)]
      omega
    · rw [if_neg hneg, signedValue, hvalue, if_pos hbound]
      omega

/-- Every integer is read back from its bytes. -/
theorem fromSignedBytesLe_toSignedBytesLe (v : Int) :
    fromSignedBytesLe (toSignedBytesLe v) = v := by
  rw [fromSignedBytesLe_eq, signedValue_toSignedBytesLe]

end RoundTrip

end Hegel
