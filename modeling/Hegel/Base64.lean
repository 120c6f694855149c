/-
Padded base64 over the standard alphabet.  Texts are the bytes of their UTF-8
form, as the decoder reads them.  Three bytes are four digits of six bits; a
partial last group is filled up with `=`.
-/
import Mathlib.Data.UInt
import Mathlib.Data.Fintype.Basic
import Mathlib.Tactic.NormNum

namespace Hegel

def b64Alphabet : List Char :=
  "ABCDEFGHIJKLMNOPQRSTUVWXYZabcdefghijklmnopqrstuvwxyz0123456789+/".toList

theorem and_sixBits_lt (n : Nat) : n &&& 0x3f < b64Alphabet.length :=
  Nat.lt_of_le_of_lt Nat.and_le_right (by decide)

/-- The digit of the lowest six bits. -/
def b64Digit (n : Nat) : UInt8 :=
  (b64Alphabet.get ⟨n &&& 0x3f, and_sixBits_lt n⟩).toUInt8

/-- The padding byte. -/
def padByte : UInt8 := '='.toUInt8

/-- Up to three bytes as four digits. -/
def encodeChunk (chunk : List UInt8) : List UInt8 :=
  let b0 := (chunk.getD 0 0).toNat
  let b1 := (chunk.getD 1 0).toNat
  let b2 := (chunk.getD 2 0).toNat
  let n := b0 <<< 16 ||| b1 <<< 8 ||| b2
  [b64Digit (n >>> 18), b64Digit (n >>> 12),
    if chunk.length > 1 then b64Digit (n >>> 6) else padByte,
    if chunk.length > 2 then b64Digit n else padByte]

def base64Encode : List UInt8 → List UInt8
  | [] => []
  | b0 :: b1 :: b2 :: rest => encodeChunk [b0, b1, b2] ++ base64Encode rest
  | chunk => encodeChunk chunk

/-- The six bits of a digit of the alphabet. -/
def base64Value (c : UInt8) : Option UInt8 :=
  if 'A'.toUInt8 ≤ c ∧ c ≤ 'Z'.toUInt8 then some (c - 'A'.toUInt8)
  else if 'a'.toUInt8 ≤ c ∧ c ≤ 'z'.toUInt8 then some (c - 'a'.toUInt8 + 26)
  else if '0'.toUInt8 ≤ c ∧ c ≤ '9'.toUInt8 then some (c - '0'.toUInt8 + 52)
  else if c = '+'.toUInt8 then some 62
  else if c = '/'.toUInt8 then some 63
  else none

/-- Four digits of a text; only the last four may be padded. -/
def decodeChunk (last : Bool) (s0 s1 s2 s3 : UInt8) : Option (List UInt8) := do
  let c0 ← base64Value s0
  let c1 ← base64Value s1
  let pad2 := s2 = padByte
  let pad3 := s3 = padByte
  if (pad2 ∨ pad3) ∧ ¬ last then none
  else if pad2 ∧ ¬ pad3 then none
  else do
    let c2 ← if pad2 then some 0 else base64Value s2
    let c3 ← if pad3 then some 0 else base64Value s3
    let n := c0.toNat <<< 18 ||| c1.toNat <<< 12 ||| c2.toNat <<< 6 ||| c3.toNat
    return UInt8.ofNat (n >>> 16) ::
      ((if pad2 then [] else [UInt8.ofNat (n >>> 8)]) ++
        if pad3 then [] else [UInt8.ofNat n])

def decodeChunks : List UInt8 → Option (List UInt8)
  | s0 :: s1 :: s2 :: s3 :: rest => do
      let bytes ← decodeChunk rest.isEmpty s0 s1 s2 s3
      let others ← decodeChunks rest
      return bytes ++ others
  | _ => some []

def base64Decode (s : List UInt8) : Option (List UInt8) :=
  if s.length % 4 ≠ 0 then none else decodeChunks s

section Digits

theorem base64Value_get : ∀ i : Fin b64Alphabet.length,
    base64Value (b64Alphabet.get i).toUInt8 = some (UInt8.ofNat i) := by
  decide +kernel

theorem base64Value_padByte : base64Value padByte = none := by decide

/-- The values of digits are their places in the alphabet. -/
theorem base64Value_inverse : ∀ i < 256,
    ∀ v ∈ base64Value (UInt8.ofNat i),
      UInt8.ofNat i = b64Digit v.toNat ∧ v.toNat < 64 := by
  decide +kernel

theorem base64Value_b64Digit (n : Nat) :
    base64Value (b64Digit n) = some (UInt8.ofNat (n % 64)) := by
  have hmask : n &&& 0x3f = n % 64 := Nat.and_two_pow_sub_one_eq_mod n 6
  rw [b64Digit, base64Value_get]
  simp only [hmask]

theorem b64Digit_ne_padByte (n : Nat) : b64Digit n ≠ padByte := by
  intro heq
  have hvalue := base64Value_b64Digit n
  rw [heq, base64Value_padByte] at hvalue
  exact absurd hvalue nofun

theorem eq_b64Digit_of_base64Value {c v : UInt8}
    (hvalue : base64Value c = some v) : c = b64Digit v.toNat ∧ v.toNat < 64 := by
  have hinverse := base64Value_inverse c.toNat c.toNat_lt v
  rw [UInt8.ofNat_toNat] at hinverse
  exact hinverse hvalue

/-- Three bytes in one number. -/
theorem or_bytes {b0 b1 b2 : Nat} (h1 : b1 < 256) (h2 : b2 < 256) :
    b0 <<< 16 ||| b1 <<< 8 ||| b2 = b0 * 65536 + b1 * 256 + b2 := by
  have hmiddle : b1 <<< 8 < 2 ^ 16 := by
    rw [Nat.shiftLeft_eq]
    omega
  have hfront : b0 <<< 16 + b1 <<< 8 = (b0 * 256 + b1) <<< 8 := by
    rw [Nat.shiftLeft_eq, Nat.shiftLeft_eq, Nat.shiftLeft_eq]
    omega
  rw [← Nat.shiftLeft_add_eq_or_of_lt hmiddle b0, hfront,
    ← Nat.shiftLeft_add_eq_or_of_lt (i := 8) h2, Nat.shiftLeft_eq]
  omega

/-- Four digits in one number. -/
theorem or_digits {c0 c1 c2 c3 : Nat} (h1 : c1 < 64) (h2 : c2 < 64)
    (h3 : c3 < 64) :
    c0 <<< 18 ||| c1 <<< 12 ||| c2 <<< 6 ||| c3 =
      c0 * 262144 + c1 * 4096 + c2 * 64 + c3 := by
  have hsecond : c1 <<< 12 < 2 ^ 18 := by
    rw [Nat.shiftLeft_eq]
    omega
  have hthird : c2 <<< 6 < 2 ^ 12 := by
    rw [Nat.shiftLeft_eq]
    omega
  have hfront : c0 <<< 18 + c1 <<< 12 = (c0 * 64 + c1) <<< 12 := by
    rw [Nat.shiftLeft_eq, Nat.shiftLeft_eq, Nat.shiftLeft_eq]
    omega
  have hback : (c0 * 64 + c1) <<< 12 + c2 <<< 6 =
      (c0 * 4096 + c1 * 64 + c2) <<< 6 := by
    rw [Nat.shiftLeft_eq, Nat.shiftLeft_eq, Nat.shiftLeft_eq]
    omega
  rw [← Nat.shiftLeft_add_eq_or_of_lt hsecond c0, hfront,
    ← Nat.shiftLeft_add_eq_or_of_lt hthird, hback,
    ← Nat.shiftLeft_add_eq_or_of_lt (i := 6) h3, Nat.shiftLeft_eq]
  omega

end Digits

section RoundTrip

theorem toNat_sixBits (n : Nat) : (UInt8.ofNat (n % 64)).toNat = n % 64 := by
  rw [UInt8.toNat_ofNat']
  omega

/-- The bytes a number of twenty-four bits was put together from. -/
theorem bytes_of_sum (b0 b1 b2 : UInt8) :
    let n := b0.toNat * 65536 + b1.toNat * 256 + b2.toNat
    UInt8.ofNat (n >>> 16) = b0 ∧ UInt8.ofNat (n >>> 8) = b1 ∧
      UInt8.ofNat n = b2 := by
  have h0 := b0.toNat_lt
  have h1 := b1.toNat_lt
  have h2 := b2.toNat_lt
  simp only [← UInt8.toNat_inj, UInt8.toNat_ofNat', Nat.shiftRight_eq_div_pow]
  omega

theorem decodeChunk_three (last : Bool) (b0 b1 b2 : UInt8) :
    decodeChunk last
        (b64Digit ((b0.toNat * 65536 + b1.toNat * 256 + b2.toNat) >>> 18))
        (b64Digit ((b0.toNat * 65536 + b1.toNat * 256 + b2.toNat) >>> 12))
        (b64Digit ((b0.toNat * 65536 + b1.toNat * 256 + b2.toNat) >>> 6))
        (b64Digit (b0.toNat * 65536 + b1.toNat * 256 + b2.toNat)) =
      some [b0, b1, b2] := by
  obtain ⟨h0, h1, h2⟩ := bytes_of_sum b0 b1 b2
  have hlt : b0.toNat * 65536 + b1.toNat * 256 + b2.toNat < 16777216 := by
    have := b0.toNat_lt
    have := b1.toNat_lt
    have := b2.toNat_lt
    omega
  generalize b0.toNat * 65536 + b1.toNat * 256 + b2.toNat = n at *
  have hsum : n >>> 18 % 64 * 262144 + n >>> 12 % 64 * 4096 +
      n >>> 6 % 64 * 64 + n % 64 = n := by
    simp only [Nat.shiftRight_eq_div_pow]
    omega
  simp only [decodeChunk, base64Value_b64Digit, b64Digit_ne_padByte,
    Option.bind_eq_bind, Option.bind_some, false_or, false_and, if_false,
    toNat_sixBits]
  rw [or_digits (by omega) (by omega) (by omega), hsum, h0, h1, h2]
  rfl

theorem decodeChunk_two (b0 b1 : UInt8) :
    decodeChunk true
        (b64Digit ((b0.toNat * 65536 + b1.toNat * 256) >>> 18))
        (b64Digit ((b0.toNat * 65536 + b1.toNat * 256) >>> 12))
        (b64Digit ((b0.toNat * 65536 + b1.toNat * 256) >>> 6)) padByte =
      some [b0, b1] := by
  obtain ⟨h0, h1, -⟩ := bytes_of_sum b0 b1 0
  have hlt : b0.toNat * 65536 + b1.toNat * 256 < 16777216 := by
    have := b0.toNat_lt
    have := b1.toNat_lt
    omega
  have hlow : (b0.toNat * 65536 + b1.toNat * 256) % 64 = 0 := by omega
  simp only [UInt8.toNat_zero, Nat.add_zero] at h0 h1
  generalize b0.toNat * 65536 + b1.toNat * 256 = n at *
  have hsum : n >>> 18 % 64 * 262144 + n >>> 12 % 64 * 4096 +
      n >>> 6 % 64 * 64 + 0 = n := by
    simp only [Nat.shiftRight_eq_div_pow]
    omega
  simp only [decodeChunk, base64Value_b64Digit, b64Digit_ne_padByte,
    Option.bind_eq_bind, Option.bind_some, if_true, if_false, not_true,
    and_false, toNat_sixBits, UInt8.toNat_zero]
  rw [or_digits (by omega) (by omega) (by omega), hsum, h0, h1]
  rfl

theorem decodeChunk_one (b0 : UInt8) :
    decodeChunk true (b64Digit ((b0.toNat * 65536) >>> 18))
        (b64Digit ((b0.toNat * 65536) >>> 12)) padByte padByte =
      some [b0] := by
  obtain ⟨h0, -, -⟩ := bytes_of_sum b0 0 0
  have hlt : b0.toNat * 65536 < 16777216 := by
    have := b0.toNat_lt
    omega
  have hlow : b0.toNat * 65536 % 4096 = 0 := by omega
  simp only [UInt8.toNat_zero, Nat.zero_mul, Nat.add_zero] at h0
  generalize b0.toNat * 65536 = n at *
  have hsum : n >>> 18 % 64 * 262144 + n >>> 12 % 64 * 4096 +
      0 * 64 + 0 = n := by
    simp only [Nat.shiftRight_eq_div_pow]
    omega
  simp only [decodeChunk, base64Value_b64Digit, Option.bind_eq_bind,
    Option.bind_some, if_true, if_false, not_true, and_false,
    toNat_sixBits, UInt8.toNat_zero]
  rw [or_digits (by omega) (by omega) (by omega), hsum, h0]
  rfl

theorem encodeChunk_three (b0 b1 b2 : UInt8) :
    let n := b0.toNat * 65536 + b1.toNat * 256 + b2.toNat
    encodeChunk [b0, b1, b2] =
      [b64Digit (n >>> 18), b64Digit (n >>> 12), b64Digit (n >>> 6),
        b64Digit n] := by
  intro n
  have hsum := @or_bytes b0.toNat _ _ b1.toNat_lt b2.toNat_lt
  simp [encodeChunk, hsum, n]

theorem encodeChunk_two (b0 b1 : UInt8) :
    let n := b0.toNat * 65536 + b1.toNat * 256
    encodeChunk [b0, b1] =
      [b64Digit (n >>> 18), b64Digit (n >>> 12), b64Digit (n >>> 6),
        padByte] := by
  intro n
  have hsum := @or_bytes b0.toNat _ 0 b1.toNat_lt (by decide)
  simp [encodeChunk, n] at hsum ⊢
  simp [hsum]

theorem encodeChunk_one (b0 : UInt8) :
    let n := b0.toNat * 65536
    encodeChunk [b0] =
      [b64Digit (n >>> 18), b64Digit (n >>> 12), padByte, padByte] := by
  intro n
  simp [encodeChunk, n, Nat.shiftLeft_eq]

theorem length_base64Encode (bytes : List UInt8) :
    (base64Encode bytes).length % 4 = 0 := by
  induction bytes using base64Encode.induct with
  | case1 => rfl
  | case2 b0 b1 b2 rest ih =>
      rw [base64Encode, List.length_append]
      simp only [encodeChunk, List.length_cons, List.length_nil]
      omega
  | case3 chunk hempty hlong =>
      rw [base64Encode]
      · simp [encodeChunk]
      · exact hempty
      · exact hlong

/-- Group by group, the decoder returns what was encoded; only the last group
of the encoding can be a partial one. -/
theorem decodeChunks_base64Encode (bytes : List UInt8) :
    decodeChunks (base64Encode bytes) = some bytes := by
  induction bytes using base64Encode.induct with
  | case1 => rfl
  | case2 b0 b1 b2 rest ih =>
      rw [base64Encode, encodeChunk_three, List.cons_append, List.cons_append,
        List.cons_append, List.cons_append, List.nil_append, decodeChunks,
        decodeChunk_three, ih]
      rfl
  | case3 chunk hempty hlong =>
      match chunk, hempty, hlong with
      | [b0], _, _ =>
          rw [base64Encode, encodeChunk_one, decodeChunks]
          simp only [List.isEmpty_nil]
          rw [decodeChunk_one]
          rfl
          all_goals simp
      | [b0, b1], _, _ =>
          rw [base64Encode, encodeChunk_two, decodeChunks]
          simp only [List.isEmpty_nil]
          rw [decodeChunk_two]
          rfl
          all_goals simp
      | b0 :: b1 :: b2 :: rest, _, hlong => exact absurd rfl (hlong b0 b1 b2 rest)

theorem base64Decode_base64Encode (bytes : List UInt8) :
    base64Decode (base64Encode bytes) = some bytes := by
  rw [base64Decode, if_neg (not_not_intro (length_base64Encode bytes)),
    decodeChunks_base64Encode]

end RoundTrip

section Accepted

def IsDigit (c : UInt8) : Prop := ∃ n, c = b64Digit n

theorem isSome_base64Value (c : UInt8) :
    (base64Value c).isSome ↔ IsDigit c := by
  constructor
  · intro hsome
    obtain ⟨v, hvalue⟩ := Option.isSome_iff_exists.mp hsome
    exact ⟨v.toNat, (eq_b64Digit_of_base64Value hvalue).1⟩
  · rintro ⟨n, rfl⟩
    rw [base64Value_b64Digit]
    rfl

theorem not_isDigit_padByte : ¬ IsDigit padByte := by
  rintro ⟨n, heq⟩
  exact b64Digit_ne_padByte n heq.symm

/-- Texts of padded base64: groups of four, digits of the alphabet, and at
most two padding bytes at the end. -/
structure Padded (s digits : List UInt8) (pad : Nat) : Prop where
  eq_append : s = digits ++ List.replicate pad padByte
  pad_le : pad ≤ 2
  length_mod : s.length % 4 = 0
  digit : ∀ c ∈ digits, IsDigit c

/-- A group is accepted with four digits, and the last one also with one or
two padding bytes. -/
theorem isSome_decodeChunk (last : Bool) (s0 s1 s2 s3 : UInt8) :
    (decodeChunk last s0 s1 s2 s3).isSome ↔
      IsDigit s0 ∧ IsDigit s1 ∧
        ((IsDigit s2 ∧ IsDigit s3) ∨
          (last ∧ s3 = padByte ∧ (IsDigit s2 ∨ s2 = padByte))) := by
  have hnotPad := not_isDigit_padByte
  simp only [decodeChunk, ← isSome_base64Value] at hnotPad ⊢
  cases h0 : base64Value s0 with
  | none => simp
  | some c0 =>
      cases h1 : base64Value s1 with
      | none => simp
      | some c1 =>
          by_cases hpad2 : s2 = padByte
          · by_cases hpad3 : s3 = padByte
            · subst hpad2 hpad3
              cases last <;> simp [hnotPad]
            · subst hpad2
              cases last <;> simp [hnotPad, hpad3]
          · by_cases hpad3 : s3 = padByte
            · subst hpad3
              cases h2 : base64Value s2 <;> cases last <;>
                simp [hnotPad, hpad2]
            · cases h2 : base64Value s2 <;> cases h3 : base64Value s3 <;>
                simp [hpad2, hpad3]

theorem isSome_decodeChunks_cons (s0 s1 s2 s3 : UInt8) (rest : List UInt8) :
    (decodeChunks (s0 :: s1 :: s2 :: s3 :: rest)).isSome ↔
      (decodeChunk rest.isEmpty s0 s1 s2 s3).isSome ∧
        (decodeChunks rest).isSome := by
  rw [decodeChunks]
  cases decodeChunk rest.isEmpty s0 s1 s2 s3 with
  | none => simp
  | some bytes =>
      cases decodeChunks rest with
      | none => simp
      | some others => simp

/-- Padding cannot reach into a group that is followed by another one. -/
theorem padded_cons {s0 s1 s2 s3 : UInt8} {rest digits : List UInt8}
    {pad : Nat} (hrest : rest ≠ []) :
    Padded (s0 :: s1 :: s2 :: s3 :: rest) digits pad ↔
      ∃ others, digits = s0 :: s1 :: s2 :: s3 :: others ∧
        (∀ c ∈ [s0, s1, s2, s3], IsDigit c) ∧ Padded rest others pad := by
  constructor
  · rintro ⟨heq, hpad, hmod, hdigit⟩
    have hlength := congrArg List.length heq
    have hnonempty := List.length_pos_iff.mpr hrest
    simp only [List.length_cons, List.length_append,
      List.length_replicate] at hlength hmod
    match digits, heq, hdigit, hlength with
    | d0 :: d1 :: d2 :: d3 :: others, heq, hdigit, _ =>
        simp only [List.cons_append, List.cons.injEq] at heq
        obtain ⟨rfl, rfl, rfl, rfl, heq⟩ := heq
        refine ⟨others, rfl, fun c hc => hdigit c ?_, heq, hpad, by omega,
          fun c hc => hdigit c ?_⟩
        · exact List.mem_append_left others hc
        · exact List.mem_append_right [s0, s1, s2, s3] hc
    | [], _, _, hlength => simp at hlength; omega
    | [d0], _, _, hlength => simp at hlength; omega
    | [d0, d1], _, _, hlength => simp at hlength; omega
    | [d0, d1, d2], _, _, hlength => simp at hlength; omega
  · rintro ⟨others, rfl, hgroup, hothers⟩
    constructor
    · rw [hothers.eq_append]
      rfl
    · exact hothers.pad_le
    · have hmod := hothers.length_mod
      simp only [List.length_cons]
      omega
    · intro c hc
      rcases List.mem_append.mp (show c ∈ [s0, s1, s2, s3] ++ others from hc)
        with hgroup' | hothers'
      · exact hgroup c hgroup'
      · exact hothers.digit c hothers'

/-- The last group. -/
theorem padded_last {s0 s1 s2 s3 : UInt8} :
    (∃ digits pad, Padded [s0, s1, s2, s3] digits pad) ↔
      IsDigit s0 ∧ IsDigit s1 ∧
        ((IsDigit s2 ∧ IsDigit s3) ∨
          (s3 = padByte ∧ (IsDigit s2 ∨ s2 = padByte))) := by
  constructor
  · rintro ⟨digits, pad, heq, hpad, -, hdigit⟩
    have hlength := congrArg List.length heq
    simp only [List.length_cons, List.length_nil, List.length_append,
      List.length_replicate] at hlength
    match pad, hpad with
    | 0, _ =>
        simp only [List.replicate_zero, List.append_nil] at heq
        subst heq
        simp only [List.forall_mem_cons] at hdigit
        exact ⟨hdigit.1, hdigit.2.1, .inl ⟨hdigit.2.2.1, hdigit.2.2.2.1⟩⟩
    | 1, _ =>
        match digits, hlength with
        | [d0, d1, d2], _ =>
            simp only [List.replicate_one, List.cons_append, List.nil_append,
              List.cons.injEq, and_true] at heq
            obtain ⟨rfl, rfl, rfl, hpadded⟩ := heq
            simp only [List.forall_mem_cons] at hdigit
            exact ⟨hdigit.1, hdigit.2.1, .inr ⟨hpadded, .inl hdigit.2.2.1⟩⟩
    | 2, _ =>
        match digits, hlength with
        | [d0, d1], _ =>
            simp only [List.replicate_succ, List.replicate_zero,
              List.cons_append, List.nil_append, List.cons.injEq,
              and_true] at heq
            obtain ⟨rfl, rfl, hpadded, hlast⟩ := heq
            simp only [List.forall_mem_cons] at hdigit
            exact ⟨hdigit.1, hdigit.2.1, .inr ⟨hlast, .inr hpadded⟩⟩
  · rintro ⟨h0, h1, ⟨h2, h3⟩ | ⟨rfl, h2 | rfl⟩⟩
    · exact ⟨[s0, s1, s2, s3], 0, rfl, by decide, by simp,
        by simp [h0, h1, h2, h3]⟩
    · exact ⟨[s0, s1, s2], 1, rfl, by decide, by simp, by simp [h0, h1, h2]⟩
    · exact ⟨[s0, s1], 2, rfl, by decide, by simp, by simp [h0, h1]⟩

theorem isSome_decodeChunks {s : List UInt8} (hlength : s.length % 4 = 0) :
    (decodeChunks s).isSome ↔ ∃ digits pad, Padded s digits pad := by
  induction s using decodeChunks.induct with
  | case1 s0 s1 s2 s3 rest ih =>
      simp only [List.length_cons] at hlength
      rw [isSome_decodeChunks_cons, isSome_decodeChunk]
      by_cases hrest : rest = []
      · subst hrest
        rw [padded_last]
        simp [decodeChunks]
      · rw [ih (by omega)]
        simp only [padded_cons hrest, List.isEmpty_eq_false_iff.mpr hrest]
        constructor
        · rintro ⟨⟨h0, h1, ⟨h2, h3⟩ | ⟨hlast, -⟩⟩, digits, pad, hpadded⟩
          · exact ⟨_, pad, digits, rfl, by simp [h0, h1, h2, h3], hpadded⟩
          · exact absurd hlast Bool.false_ne_true
        · rintro ⟨digits, pad, others, rfl, hgroup, hpadded⟩
          simp only [List.forall_mem_cons] at hgroup
          exact ⟨⟨hgroup.1, hgroup.2.1, .inl ⟨hgroup.2.2.1, hgroup.2.2.2.1⟩⟩,
            others, pad, hpadded⟩
  | case2 s hshort =>
      have hempty : s = [] := by
        match s, hlength, hshort with
        | [], _, _ => rfl
        | s0 :: s1 :: s2 :: s3 :: rest, _, hshort =>
            exact absurd rfl (hshort s0 s1 s2 s3 rest)
      subst hempty
      refine ⟨fun _ => ⟨[], 0, rfl, by decide, rfl, by simp⟩, fun _ => rfl⟩

/-- Exactly the padded texts are decoded. -/
theorem isSome_base64Decode (s : List UInt8) :
    (base64Decode s).isSome ↔ ∃ digits pad, Padded s digits pad := by
  rw [base64Decode]
  by_cases hmod : s.length % 4 = 0
  · rw [if_neg (not_not_intro hmod), isSome_decodeChunks hmod]
  · rw [if_pos hmod]
    constructor
    · intro hsome
      exact absurd hsome Bool.false_ne_true
    · rintro ⟨digits, pad, hpadded⟩
      exact absurd hpadded.length_mod hmod

end Accepted

end Hegel
