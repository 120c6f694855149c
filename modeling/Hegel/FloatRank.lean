/-
The rank of a float and its inverse.  Every float is found again under its
rank.  Some ranks stand for a float of another rank: an untagged index with
more than 53 significant bits is rounded, and a tagged index may stand for a
small integer, which has an untagged one.
-/
import Hegel.FloatConstraint

namespace Hegel

open Binary64 FloatChoice

/-- The float that the index stands for has another index. -/
def IsAlias (index : Nat) : Prop :=
  if index < 2 ^ 63 then ¬2 ^ (Nat.log2 index - 52) ∣ index
  else
    let code := index / 2 ^ 52 % 2 ^ 11
    let fraction := index % 2 ^ 52
    (code ≤ 55 ∧ fraction % 2 ^ (52 - code) = 0) ∨
      (code = 2046 ∧ fraction = 0)

/-- The rank of an infinity, of a NaN, or of a finite float under its own
index. -/
def CanonicalRank (rank : Nat) : Prop :=
  maxFiniteGlobalRank < rank ∨ ¬IsAlias (rank / 2)

section Simple

variable {v : Binary64}

/-- The simple values are told by their fields. -/
theorem isSimpleFloat_fields (hsign : v.isSignNegative = false)
    (hfinite : v.isFinite = true) :
    isSimpleFloat v = true ↔
      v.biasedExponent ≤ 1078 ∧ v.hasFraction = false := by
  rw [isSimpleFloat_iff hsign hfinite, hasFraction_eq_false_iff]
  have hpow : 2 ^ 56 * one = 2 ^ 52 * 2 ^ 1078 := by
    rw [one, ← pow_add, ← pow_add]
  constructor
  · rintro ⟨n, hn, hulps⟩
    constructor
    · by_contra hlarge
      obtain ⟨e, he⟩ := Nat.exists_eq_add_of_le
        (show 1 ≤ v.biasedExponent by omega)
      rw [Nat.add_comm] at he
      have hlow := (ulps_bounds he).1
      have hmono : 2 ^ 1078 ≤ 2 ^ e :=
        Nat.pow_le_pow_right (by decide) (by omega)
      have hlt := Nat.mul_lt_mul_of_pos_right hn Binary64.one_pos
      rw [hpow, ← hulps] at hlt
      have hle := Nat.mul_le_mul_left (2 ^ 52) hmono
      exact absurd (hle.trans hlow) (Nat.not_le.mpr hlt)
    · exact ⟨n, by rw [hulps, Nat.mul_comm]⟩
  · rintro ⟨hexponent, n, hulps⟩
    rw [Nat.mul_comm] at hulps
    refine ⟨n, ?_, hulps⟩
    have hlt := ulps_lt_of_exponent_le hexponent
    rw [← hpow, hulps] at hlt
    exact Nat.lt_of_mul_lt_mul_right hlt

/-- Reordering keeps whether the fraction bits are clear. -/
theorem mantissaCode_mod_eq_zero_iff (biasedExp : Nat) {m : Nat}
    (hm : m < 2 ^ 52) :
    mantissaCode biasedExp m % 2 ^ fractionBits biasedExp = 0 ↔
      m % 2 ^ fractionBits biasedExp = 0 := by
  have hreverse := reverseBitsN_lt (m % 2 ^ fractionBits biasedExp)
    (fractionBits biasedExp)
  rw [mantissaCode, updateMantissa_eq biasedExp hm,
    Nat.mul_add_mod_self_right, Nat.mod_eq_of_lt hreverse]
  constructor
  · intro hzero
    have hback := reverseBitsN_reverseBitsN
      (m % 2 ^ fractionBits biasedExp) (fractionBits biasedExp)
    rw [hzero, reverseBitsN_zero, Nat.mod_mod] at hback
    exact hback.symm
  · intro hzero
    rw [hzero]
    exact reverseBitsN_zero _

theorem mantissaCode_eq_zero_iff (biasedExp : Nat) {m : Nat}
    (hm : m < 2 ^ 52) : mantissaCode biasedExp m = 0 ↔ m = 0 := by
  have hzero : mantissaCode biasedExp 0 = 0 := by
    rw [mantissaCode, updateMantissa_eq biasedExp (by decide), Nat.zero_div,
      Nat.zero_mul, Nat.zero_mod, reverseBitsN_zero]
  constructor
  · intro hcode
    rw [← mantissaCode_mantissaCode biasedExp hm, hcode, hzero]
  · rintro rfl
    exact hzero

end Simple

section Index

variable {v : Binary64}

/-- The fields of the float of a tagged index. -/
theorem indexToFloat_tagged {code mantissa : Nat} (hcode : code ≤ 2046)
    (hmantissa : mantissa < 2 ^ 52) :
    let v := indexToFloat (2 ^ 63 + code * 2 ^ 52 + mantissa)
    v.isSignNegative = false ∧ v.isFinite = true ∧
      v.biasedExponent = decodeExponent code ∧
        v.fraction = mantissaCode (decodeExponent code) mantissa := by
  have hdecode : decodeExponent code < 2047 := by
    rw [decodeExponent, if_neg (by omega)]
    split <;> omega
  have hlt := mantissaCode_lt (decodeExponent code) hmantissa
  have htag : (2 ^ 63 + code * 2 ^ 52 + mantissa) / 2 ^ 63 ≠ 0 := by omega
  have hfield : (2 ^ 63 + code * 2 ^ 52 + mantissa) / 2 ^ 52 % 2 ^ 11 =
      code := by omega
  have hlow : (2 ^ 63 + code * 2 ^ 52 + mantissa) % 2 ^ 52 = mantissa := by
    omega
  have hbits := bits_ofBits_fields hdecode hlt
  rw [indexToFloat, if_neg htag, hfield, hlow]
  dsimp only
  rw [← mantissaCode]
  generalize ofBits (decodeExponent code * 2 ^ 52 |||
    mantissaCode (decodeExponent code) mantissa) = v at hbits
  have hnonneg : v.bits < 2 ^ 63 := by omega
  have hsign := (isSignNegative_eq_false_iff v).mpr hnonneg
  refine ⟨hsign, ?_, fields_of_bits hlt hbits hsign⟩
  rw [isFinite, magnitude_of_nonneg hnonneg, decide_eq_true_eq]
  omega

/-- A finite float is found again under its index. -/
theorem indexToFloat_floatToIndex (hsign : v.isSignNegative = false)
    (hfinite : v.isFinite = true) : indexToFloat (floatToIndex v) = v := by
  cases hsimple : isSimpleFloat v with
  | true =>
      obtain ⟨n, hn, hulps⟩ := (isSimpleFloat_iff hsign hfinite).mp hsimple
      rw [floatToIndex_simple hsign hfinite hn hulps, indexToFloat,
        if_pos (by omega), Nat.mod_eq_of_lt hn]
      exact ofNat_of_ulps hsign (by omega) hulps
  | false =>
      have hexponent := biasedExponent_lt v
      obtain ⟨hsign', -, hexponent', hfraction⟩ := indexToFloat_tagged
        (encodeExponent_le hfinite) (mantissaCode_lt v.biasedExponent v.fraction_lt)
      rw [decodeExponent_encodeExponent hexponent] at hexponent' hfraction
      rw [mantissaCode_mantissaCode _ v.fraction_lt] at hfraction
      rw [floatToIndex_tagged hsign hsimple, taggedIndex]
      apply ext_bits
      rw [bits_eq hsign', bits_eq hsign, hexponent', hfraction]

/-- The small integers among the tagged indices. -/
theorem simple_iff_isAlias {code mantissa : Nat} (hcode : code ≤ 2046)
    (hmantissa : mantissa < 2 ^ 52) :
    isSimpleFloat (indexToFloat (2 ^ 63 + code * 2 ^ 52 + mantissa)) = true ↔
      IsAlias (2 ^ 63 + code * 2 ^ 52 + mantissa) := by
  obtain ⟨hsign, hfinite, hexponent, hfraction⟩ :=
    indexToFloat_tagged hcode hmantissa
  generalize indexToFloat (2 ^ 63 + code * 2 ^ 52 + mantissa) = v at *
  have hfield : (2 ^ 63 + code * 2 ^ 52 + mantissa) / 2 ^ 52 % 2 ^ 11 =
      code := by omega
  have hlow : (2 ^ 63 + code * 2 ^ 52 + mantissa) % 2 ^ 52 = mantissa := by
    omega
  rw [isSimpleFloat_fields hsign hfinite, IsAlias, if_neg (by omega), hfield,
    hlow, hasFraction, magnitude_eq, hexponent, hfraction]
  dsimp only
  rcases Nat.lt_or_ge 1023 code with hhigh | hsmall
  · -- exponents below one: only zero is an integer
    have hdecode : decodeExponent code = 2046 - code := by
      rw [decodeExponent, if_neg (by omega), if_neg (by omega)]
    have hzero := mantissaCode_eq_zero_iff (2046 - code) hmantissa
    rw [hdecode, if_pos (by omega), decide_eq_false_iff_not,
      Decidable.not_not, Nat.add_eq_zero_iff, hzero]
    omega
  · have hdecode : decodeExponent code = code + 1023 := by
      rw [decodeExponent, if_neg (by omega), if_pos (by omega)]
    have hbits : fractionBits (code + 1023) = 52 - code := by
      rw [fractionBits]
      omega
    have hclear := mantissaCode_mod_eq_zero_iff (code + 1023) hmantissa
    rw [hbits] at hclear
    rw [hdecode, if_neg (by omega), decide_eq_false_iff_not,
      Decidable.not_not, show 1075 - (code + 1023) = 52 - code by omega,
      hclear]
    omega

theorem isSimpleFloat_ofNat {n : Nat} (hn : n < 2 ^ 64) :
    isSimpleFloat (ofNat n) = true ↔ roundNat n < 2 ^ 56 := by
  rw [isSimpleFloat_iff (isSignNegative_ofNat hn) (isFinite_ofNat hn),
    ulps_ofNat hn]
  constructor
  · rintro ⟨n', hn', hulps⟩
    rw [Nat.eq_of_mul_eq_mul_right Binary64.one_pos hulps]
    exact hn'
  · intro hround
    exact ⟨roundNat n, hround, rfl⟩

/-- What an index that is decoded at all stands for has that index, unless it
is an alias. -/
theorem indexToFloat_spec {index : Nat}
    (hindex : index < 2 ^ 56 ∨
      2 ^ 63 ≤ index ∧ index ≤ 2 ^ 63 + 2046 * 2 ^ 52 + (2 ^ 52 - 1)) :
    (indexToFloat index).isSignNegative = false ∧
      (indexToFloat index).isFinite = true ∧
        (floatToIndex (indexToFloat index) = index ↔ ¬IsAlias index) := by
  rcases hindex with hsmall | ⟨htag, hmax⟩
  · have hdecode : indexToFloat index = ofNat index := by
      rw [indexToFloat, if_pos (by omega), Nat.mod_eq_of_lt hsmall]
    have hsign := isSignNegative_ofNat (show index < 2 ^ 64 by omega)
    have hfinite := isFinite_ofNat (show index < 2 ^ 64 by omega)
    have hulps := ulps_ofNat (show index < 2 ^ 64 by omega)
    rw [hdecode]
    refine ⟨hsign, hfinite, ?_⟩
    rw [IsAlias, if_pos (by omega), Decidable.not_not, ← roundNat_eq_self_iff]
    cases hsimple : isSimpleFloat (ofNat index) with
    | true =>
        have hround := (isSimpleFloat_ofNat (by omega)).mp hsimple
        rw [floatToIndex_simple hsign hfinite hround hulps]
    | false =>
        have hround : ¬roundNat index < 2 ^ 56 := by
          rw [← isSimpleFloat_ofNat (show index < 2 ^ 64 by omega), hsimple]
          decide
        rw [floatToIndex_tagged hsign hsimple, taggedIndex]
        omega
  · obtain ⟨code, mantissa, hcode, hmantissa, rfl⟩ :
        ∃ code mantissa, code ≤ 2046 ∧ mantissa < 2 ^ 52 ∧
          index = 2 ^ 63 + code * 2 ^ 52 + mantissa :=
      ⟨(index - 2 ^ 63) / 2 ^ 52, (index - 2 ^ 63) % 2 ^ 52, by omega,
        by omega, by omega⟩
    obtain ⟨hsign, hfinite, hexponent, hfraction⟩ :=
      indexToFloat_tagged hcode hmantissa
    refine ⟨hsign, hfinite, ?_⟩
    rw [← simple_iff_isAlias hcode hmantissa, Bool.not_eq_true]
    cases hsimple : isSimpleFloat
        (indexToFloat (2 ^ 63 + code * 2 ^ 52 + mantissa)) with
    | true =>
        obtain ⟨n, hn, hulps⟩ := (isSimpleFloat_iff hsign hfinite).mp hsimple
        rw [floatToIndex_simple hsign hfinite hn hulps]
        simp only [Bool.true_eq_false, iff_false]
        omega
    | false =>
        rw [floatToIndex_tagged hsign hsimple, taggedIndex, hexponent,
          hfraction, encodeExponent_decodeExponent (by omega),
          mantissaCode_mantissaCode _ hmantissa]
        exact ⟨fun _ => rfl, fun _ => rfl⟩

/-- The indices of finite floats are among those that are decoded. -/
theorem floatToIndex_range (hsign : v.isSignNegative = false)
    (hfinite : v.isFinite = true) :
    floatToIndex v < 2 ^ 56 ∨ 2 ^ 63 ≤ floatToIndex v ∧
      floatToIndex v ≤ 2 ^ 63 + 2046 * 2 ^ 52 + (2 ^ 52 - 1) := by
  cases hsimple : isSimpleFloat v with
  | true =>
      obtain ⟨n, hn, hulps⟩ := (isSimpleFloat_iff hsign hfinite).mp hsimple
      rw [floatToIndex_simple hsign hfinite hn hulps]
      exact .inl hn
  | false =>
      have hcode := mantissaCode_lt v.biasedExponent v.fraction_lt
      have hencoded := encodeExponent_le hfinite
      rw [floatToIndex_tagged hsign hsimple, taggedIndex]
      omega

end Index

section Rank

variable {v : Binary64}

theorem maxFiniteGlobalRank_eq : maxFiniteGlobalRank =
    (2 ^ 63 + 2046 * 2 ^ 52 + (2 ^ 52 - 1)) * 2 + 1 := by
  decide

/-- A magnitude with a sign. -/
def signed (isNeg : Bool) (mag : Binary64) : Binary64 :=
  if isNeg then mag.neg else mag

theorem signed_fields (isNeg : Bool) {mag : Binary64}
    (hsign : mag.isSignNegative = false) (hfinite : mag.isFinite = true) :
    (signed isNeg mag).isSignNegative = isNeg ∧
      (signed isNeg mag).isNan = false ∧
        (signed isNeg mag).isInfinite = false ∧
          signed isNeg (signed isNeg mag) = mag := by
  have hnan : mag.isNan = false := by
    rw [isFinite, decide_eq_true_eq] at hfinite
    rw [isNan, decide_eq_false_iff_not]
    omega
  have hinf : mag.isInfinite = false := by
    rw [isFinite, decide_eq_true_eq] at hfinite
    rw [isInfinite, decide_eq_false_iff_not]
    omega
  cases isNeg with
  | false => exact ⟨hsign, hnan, hinf, rfl⟩
  | true =>
      simp only [signed, if_true]
      rw [isSignNegative_neg, hsign, isNan_neg, isInfinite_neg, neg_neg]
      exact ⟨rfl, hnan, hinf, rfl⟩

theorem rank_signed (isNeg : Bool) {mag : Binary64}
    (hsign : mag.isSignNegative = false) (hfinite : mag.isFinite = true) :
    floatGlobalRank (signed isNeg mag) =
      floatToIndex mag * 2 + isNeg.toNat := by
  obtain ⟨hsigned, hnan, hinf, hback⟩ := signed_fields isNeg hsign hfinite
  rw [floatGlobalRank, hnan, hinf, hsigned]
  simp only [Bool.false_eq_true, if_false]
  exact congrArg (fun mag => floatToIndex mag * 2 + isNeg.toNat) hback

/-- The ranks of the finite floats decode to an index and a sign. -/
theorem floatFromGlobalRank_index (isNeg : Bool) {index : Nat}
    (hindex : index < 2 ^ 56 ∨
      2 ^ 63 ≤ index ∧ index ≤ 2 ^ 63 + 2046 * 2 ^ 52 + (2 ^ 52 - 1)) :
    floatFromGlobalRank (index * 2 + isNeg.toNat) =
      some (signed isNeg (indexToFloat index)) := by
  have hmax := maxFiniteGlobalRank_eq
  have hbit : isNeg.toNat ≤ 1 := Bool.toNat_le isNeg
  have hhalf : (index * 2 + isNeg.toNat) / 2 = index := by omega
  have hodd : (index * 2 + isNeg.toNat) % 2 = isNeg.toNat := by omega
  rw [floatFromGlobalRank, if_neg (by omega), hhalf, hodd]
  dsimp only
  rw [if_neg (by omega), if_neg (by omega)]
  cases isNeg with
  | false => rfl
  | true => rfl

/-- A finite rank that decodes is made of an index and a sign. -/
theorem floatFromGlobalRank_finite {rank : Nat}
    (hrank : rank ≤ maxFiniteGlobalRank)
    (hdecode : floatFromGlobalRank rank = some v) :
    ∃ index isNeg, rank = index * 2 + Bool.toNat isNeg ∧
      (index < 2 ^ 56 ∨ 2 ^ 63 ≤ index ∧
        index ≤ 2 ^ 63 + 2046 * 2 ^ 52 + (2 ^ 52 - 1)) ∧
      v = signed isNeg (indexToFloat index) := by
  have hmax := maxFiniteGlobalRank_eq
  have hsplit : rank = rank / 2 * 2 +
      (decide (rank % 2 = 1)).toNat := by
    by_cases hodd : rank % 2 = 1
    · rw [decide_eq_true hodd, Bool.toNat_true]
      omega
    · rw [decide_eq_false hodd, Bool.toNat_false]
      omega
  have hindex : rank / 2 < 2 ^ 56 ∨ 2 ^ 63 ≤ rank / 2 ∧
      rank / 2 ≤ 2 ^ 63 + 2046 * 2 ^ 52 + (2 ^ 52 - 1) := by
    rw [floatFromGlobalRank, if_neg (by omega)] at hdecode
    dsimp only at hdecode
    by_cases hgap : rank / 2 / 2 ^ 63 = 0 ∧ rank / 2 / 2 ^ 56 ≠ 0
    · rw [if_neg (by omega), if_pos hgap] at hdecode
      cases hdecode
    · omega
  refine ⟨rank / 2, decide (rank % 2 = 1), hsplit, hindex, ?_⟩
  have hfound := floatFromGlobalRank_index (decide (rank % 2 = 1)) hindex
  rw [← hsplit, hdecode, Option.some.injEq] at hfound
  exact hfound

/-- The NaN with a payload and a sign. -/
def nanOf (sign mantissa : Nat) : Binary64 :=
  ofBits (sign * 2 ^ 63 ||| 0x7FF * 2 ^ 52 ||| mantissa)

theorem nanOf_fields {sign mantissa : Nat} (hsign : sign ≤ 1)
    (hmantissa : mantissa < 2 ^ 52) :
    (nanOf sign mantissa).bits =
      sign * 2 ^ 63 + 0x7FF * 2 ^ 52 + mantissa := by
  have hhigh : sign * 2 ^ 63 ||| 0x7FF * 2 ^ 52 =
      (sign * 2 ^ 11 + 0x7FF) * 2 ^ 52 := by
    rw [or_of_lt (by decide)]
    ring
  rw [nanOf, hhigh, or_of_lt hmantissa, bits_ofBits (by omega)]
  ring

theorem isNan_nanOf {sign mantissa : Nat} (hsign : sign ≤ 1)
    (hmantissa : mantissa < 2 ^ 52) :
    (nanOf sign mantissa).isNan = decide (mantissa ≠ 0) := by
  have hbits := nanOf_fields hsign hmantissa
  rw [isNan, magnitude, hbits]
  apply decide_eq_decide.mpr
  omega

theorem xor_lt_52 {n : Nat} (hn : n < 2 ^ 52) : n ^^^ 2 ^ 51 < 2 ^ 52 :=
  Nat.xor_lt_two_pow hn (by decide)

/-- The ranks of the NaNs. -/
theorem rank_nanOf {sign offset : Nat} (hsign : sign ≤ 1)
    (hoffset : offset < 2 ^ 52) (hne : offset ^^^ 2 ^ 51 ≠ 0) :
    floatGlobalRank (nanOf sign (offset ^^^ 2 ^ 51)) =
      maxFiniteGlobalRank + 3 + offset * 2 + sign := by
  have hmantissa := xor_lt_52 hoffset
  have hbits := nanOf_fields hsign hmantissa
  have hnan := isNan_nanOf hsign hmantissa
  have hlow : (nanOf sign (offset ^^^ 2 ^ 51)).bits % 2 ^ 52 =
      offset ^^^ 2 ^ 51 := by omega
  have hhigh : (nanOf sign (offset ^^^ 2 ^ 51)).bits / 2 ^ 63 = sign := by
    omega
  rw [floatGlobalRank, hnan, decide_eq_true hne, if_pos rfl, hlow, hhigh]
  simp only [Nat.xor_assoc, Nat.xor_self, Nat.xor_zero]

theorem floatFromGlobalRank_nan {sign offset : Nat} (hsign : sign ≤ 1)
    (hoffset : offset < 2 ^ 52) :
    floatFromGlobalRank (maxFiniteGlobalRank + 3 + offset * 2 + sign) =
      if offset ^^^ 2 ^ 51 ≠ 0 then some (nanOf sign (offset ^^^ 2 ^ 51))
      else none := by
  have hmantissa := xor_lt_52 hoffset
  have hnan := isNan_nanOf hsign hmantissa
  have hoff : maxFiniteGlobalRank + 3 + offset * 2 + sign -
      maxFiniteGlobalRank = offset * 2 + sign + 3 := by omega
  have hhalf : (offset * 2 + sign + 3 - 3) / 2 = offset := by omega
  have hodd : (offset * 2 + sign + 3 - 3) % 2 = sign := by omega
  rw [floatFromGlobalRank, if_pos (by omega)]
  dsimp only
  rw [hoff, if_neg (by omega), if_neg (by omega), hhalf, hodd,
    if_neg (by omega), ← nanOf, hnan]
  simp only [decide_eq_true_eq]

/-- A finite float is a magnitude with its sign. -/
theorem eq_signed_of_finite (hfinite : v.isFinite = true) :
    ∃ isNeg mag, mag.isSignNegative = false ∧ mag.isFinite = true ∧
      v = signed isNeg mag := by
  cases hsign : v.isSignNegative with
  | false => exact ⟨false, v, hsign, hfinite, rfl⟩
  | true =>
      refine ⟨true, v.neg, ?_, ?_, ?_⟩
      · rw [isSignNegative_neg, hsign]
        rfl
      · rw [isFinite, magnitude_neg]
        exact hfinite
      · rw [signed, if_pos rfl, neg_neg]

/-- Every float is found again under its rank, bit for bit. -/
theorem floatFromGlobalRank_floatGlobalRank (v : Binary64) :
    floatFromGlobalRank (floatGlobalRank v) = some v := by
  rcases finite_or_infinite_or_nan v with hfinite | hinf | hnan
  · obtain ⟨isNeg, mag, hsign, hmag, rfl⟩ := eq_signed_of_finite hfinite
    rw [rank_signed isNeg hsign hmag,
      floatFromGlobalRank_index isNeg (floatToIndex_range hsign hmag),
      indexToFloat_floatToIndex hsign hmag]
  · rcases float_cases v with hnan | rfl | rfl | rfl | rfl | hpos | hpos
    · rw [isInfinite, decide_eq_true_eq] at hinf
      rw [isNan, decide_eq_true_eq, hinf] at hnan
      omega
    · decide
    · decide
    · exact absurd hinf (by decide)
    · exact absurd hinf (by decide)
    · rw [hpos.isInfinite] at hinf
      cases hinf
    · have hneg := hpos.isInfinite
      rw [isInfinite_neg, hinf] at hneg
      cases hneg
  · have hsign : v.bits / 2 ^ 63 ≤ 1 := by
      have hlt := v.isLt
      omega
    have hmantissa : v.bits % 2 ^ 52 < 2 ^ 52 := v.fraction_lt
    have hback : v.bits % 2 ^ 52 ^^^ 2 ^ 51 ^^^ 2 ^ 51 = v.bits % 2 ^ 52 := by
      rw [Nat.xor_assoc, Nat.xor_self, Nat.xor_zero]
    have hbits := nanOf_fields hsign hmantissa
    have hne : v.bits % 2 ^ 52 ≠ 0 := by
      rw [isNan, magnitude, decide_eq_true_eq] at hnan
      omega
    have hsame : nanOf (v.bits / 2 ^ 63) (v.bits % 2 ^ 52) = v := by
      apply ext_bits
      have hlt := v.isLt
      rw [isNan, magnitude, decide_eq_true_eq] at hnan
      omega
    rw [floatGlobalRank, if_pos hnan]
    dsimp only
    rw [floatFromGlobalRank_nan hsign (xor_lt_52 hmantissa), hback,
      if_pos hne, hsame]

/-- What a rank stands for has that rank exactly when it is canonical. -/
theorem rank_eq_iff_canonical {rank : Nat}
    (hdecode : floatFromGlobalRank rank = some v) :
    floatGlobalRank v = rank ↔ CanonicalRank rank := by
  rcases Nat.lt_or_ge maxFiniteGlobalRank rank with hlarge | hsmall
  · have hsame : floatGlobalRank v = rank := by
      have hcases : rank = maxFiniteGlobalRank + 1 ∨
          rank = maxFiniteGlobalRank + 2 ∨ ∃ offset sign, sign ≤ 1 ∧
            rank = maxFiniteGlobalRank + 3 + offset * 2 + sign := by
        rcases Nat.lt_or_ge rank (maxFiniteGlobalRank + 3) with hinf | hnan
        · omega
        · exact .inr (.inr ⟨(rank - (maxFiniteGlobalRank + 3)) / 2,
            (rank - (maxFiniteGlobalRank + 3)) % 2, by omega, by omega⟩)
      rcases hcases with rfl | rfl | ⟨offset, sign, hsign, rfl⟩
      · have hinf : floatFromGlobalRank (maxFiniteGlobalRank + 1) =
            some .infinity := by decide
        rw [hinf, Option.some.injEq] at hdecode
        rw [← hdecode, rank_infinity]
      · have hinf : floatFromGlobalRank (maxFiniteGlobalRank + 2) =
            some .negInfinity := by decide
        rw [hinf, Option.some.injEq] at hdecode
        rw [← hdecode, rank_negInfinity]
      · have hoffset : offset < 2 ^ 52 := by
          by_contra hwide
          have hhalf : (maxFiniteGlobalRank + 3 + offset * 2 + sign -
              maxFiniteGlobalRank - 3) / 2 = offset := by omega
          rw [floatFromGlobalRank, if_pos hlarge] at hdecode
          dsimp only at hdecode
          rw [if_neg (by omega), if_neg (by omega), hhalf,
            if_pos (by omega)] at hdecode
          cases hdecode
        rw [floatFromGlobalRank_nan hsign hoffset] at hdecode
        split at hdecode
        case isTrue hne =>
          rw [← Option.some.inj hdecode]
          exact rank_nanOf hsign hoffset hne
        case isFalse => cases hdecode
    exact ⟨fun _ => .inl hlarge, fun _ => hsame⟩
  · obtain ⟨index, isNeg, rfl, hindex, rfl⟩ :=
      floatFromGlobalRank_finite hsmall hdecode
    obtain ⟨hsign, hfinite, hiff⟩ := indexToFloat_spec hindex
    have hbit : isNeg.toNat ≤ 1 := Bool.toNat_le isNeg
    have hhalf : (index * 2 + isNeg.toNat) / 2 = index := by omega
    rw [rank_signed isNeg hsign hfinite, CanonicalRank, hhalf, ← hiff]
    omega

end Rank

section Choice

variable {fc : FloatChoice}

/-- A constraint that admits something has a simplest value. -/
theorem FloatChoice.simplest_total {w : Binary64}
    (hw : fc.validate w = true) : ∃ s, fc.simplest = .ok s := by
  rw [simplest]
  by_cases hzero : fc.validate .zero = true
  · exact ⟨_, if_pos hzero⟩
  rw [if_neg hzero]
  by_cases hnegZero : fc.validate .negZero = true
  · exact ⟨_, if_pos hnegZero⟩
  rw [if_neg hnegZero]
  obtain ⟨-, hnone⟩ := @simplestFinite_spec fc
    (fun hmax => by
      by_contra hmin
      exact hzero (validate_zero (by omega) hmax))
    (fun hmin => by
      by_contra hmax
      exact hnegZero (validate_negZero hmin (by omega)))
  cases hfinite : fc.simplestFinite with
  | some best => exact ⟨_, rfl⟩
  | none =>
      dsimp only
      by_cases hinf : (fc.allowInfinity && fc.validate .infinity) = true
      · exact ⟨_, if_pos hinf⟩
      rw [if_neg hinf]
      by_cases hnegInf : (fc.allowInfinity && fc.validate .negInfinity) = true
      · exact ⟨_, if_pos hnegInf⟩
      rw [if_neg hnegInf]
      -- what is admitted is neither finite nor infinite
      have hnan : w.isNan = true := by
        rcases float_cases w with hnan | rfl | rfl | rfl | rfl | hpos | hpos
        · exact hnan
        · rw [allowInfinity_of_valid (by decide) (by decide) hw, hw] at hinf
          exact absurd rfl hinf
        · rw [allowInfinity_of_valid (by decide) (by decide) hw, hw] at hnegInf
          exact absurd rfl hnegInf
        · exact absurd hw hzero
        · exact absurd hw hnegZero
        · rw [hnone hfinite w (.inl hpos)] at hw
          cases hw
        · rw [hnone hfinite w (.inr hpos)] at hw
          cases hw
      rw [validate, if_pos hnan] at hw
      exact ⟨_, if_pos hw⟩

theorem FloatChoice.toIndex_eq_iff {s v : Binary64}
    (hs : fc.simplest = .ok s) (hv : fc.validate v = true) (index : Nat) :
    fc.toIndex v = .ok index ↔
      floatGlobalRank v = floatGlobalRank s + index := by
  have hle := (simplest_spec hs).2 v hv
  have hindex : fc.toIndex v =
      .ok (floatGlobalRank v - floatGlobalRank s) := by
    rw [FloatChoice.toIndex, hs]
    rfl
  rw [hindex, Except.ok.injEq]
  omega

/-- A decoded value is admitted and is what the rank stands for. -/
theorem FloatChoice.fromIndex_of_simplest {s : Binary64}
    (hs : fc.simplest = .ok s) (index : Nat) :
    fc.fromIndex index =
      match floatFromGlobalRank (floatGlobalRank s + index) with
      | none => .ok none
      | some value =>
          .ok (if fc.validate value then some value else none) := by
  rw [FloatChoice.fromIndex, hs]
  dsimp only [bind, Except.bind]
  cases floatFromGlobalRank (floatGlobalRank s + index) with
  | none => rfl
  | some value => rfl

theorem FloatChoice.fromIndex_eq_some_iff {s v : Binary64}
    (hs : fc.simplest = .ok s) (index : Nat) :
    fc.fromIndex index = .ok (some v) ↔
      fc.validate v = true ∧
        floatFromGlobalRank (floatGlobalRank s + index) = some v := by
  rw [fc.fromIndex_of_simplest hs]
  cases floatFromGlobalRank (floatGlobalRank s + index) with
  | none => simp
  | some value =>
      dsimp only
      by_cases hvalid : fc.validate value = true
      · rw [if_pos hvalid]
        constructor
        · intro heq
          rw [Option.some.inj (Except.ok.inj heq)] at hvalid
          exact ⟨hvalid, Option.some.inj (Except.ok.inj heq) ▸ rfl⟩
        · rintro ⟨-, heq⟩
          rw [Option.some.inj heq]
      · rw [if_neg hvalid]
        constructor
        · intro heq
          cases Except.ok.inj heq
        · rintro ⟨hadmitted, heq⟩
          rw [← Option.some.inj heq] at hadmitted
          exact absurd hadmitted hvalid

/-- The index of every admitted value decodes to it bit for bit; and a decoded
value is admitted and has the index it was decoded from exactly when the rank
of that index is canonical. -/
theorem float_index_inverse (fc : FloatChoice) :
    (∀ v, fc.validate v = true →
      ∃ index, fc.toIndex v = .ok index ∧
        fc.fromIndex index = .ok (some v)) ∧
    (∀ index v, fc.fromIndex index = .ok (some v) →
      (fc.validate v = true ∧ fc.toIndex v = .ok index ↔
        ∃ s, fc.simplest = .ok s ∧
          CanonicalRank (floatGlobalRank s + index))) ∧
    (∀ v, floatFromGlobalRank (floatGlobalRank v) = some v) ∧
    ∀ rank v, floatFromGlobalRank rank = some v →
      (floatGlobalRank v = rank ↔ CanonicalRank rank) := by
  refine ⟨?_, ?_, floatFromGlobalRank_floatGlobalRank, ?_⟩
  · intro v hv
    obtain ⟨s, hs⟩ := fc.simplest_total hv
    have hle := (simplest_spec hs).2 v hv
    have hrank : floatGlobalRank v = floatGlobalRank s +
        (floatGlobalRank v - floatGlobalRank s) := by omega
    refine ⟨floatGlobalRank v - floatGlobalRank s, ?_, ?_⟩
    · exact (toIndex_eq_iff hs hv _).mpr hrank
    · rw [fromIndex_eq_some_iff hs, ← hrank]
      exact ⟨hv, floatFromGlobalRank_floatGlobalRank v⟩
  · intro index v hdecode
    cases hs : fc.simplest with
    | error error =>
        rw [FloatChoice.fromIndex, hs] at hdecode
        cases hdecode
    | ok s =>
        obtain ⟨hvalid, hfound⟩ :=
          (fromIndex_eq_some_iff hs index).mp hdecode
        rw [toIndex_eq_iff hs hvalid, rank_eq_iff_canonical hfound]
        constructor
        · rintro ⟨-, hcanonical⟩
          exact ⟨s, rfl, hcanonical⟩
        · rintro ⟨s', heq, hcanonical⟩
          rw [← Except.ok.inj heq] at hcanonical
          exact ⟨hvalid, hcanonical⟩
  · intro rank v hfound
    exact rank_eq_iff_canonical hfound

/-- Every float but the NaNs. -/
def fullRange : FloatChoice where
  minValue := .negInfinity
  maxValue := .infinity
  allowNan := false
  allowInfinity := true
  smallestNonzeroMagnitude := ⟨1, by decide⟩
  minValue_number := by decide
  maxValue_number := by decide

/-- The first tagged index stands for one, whose own index is untagged. -/
theorem float_index_inverse_fails :
    ∃ index v, fullRange.fromIndex index = .ok (some v) ∧
      fullRange.validate v = true ∧ fullRange.toIndex v ≠ .ok index := by
  refine ⟨2 ^ 64, .ofNat 1, ?_, ?_, ?_⟩
  · decide +kernel
  · decide +kernel
  · decide +kernel

/-- One has the canonical index 2. -/
theorem float_index_inverse_one :
    fullRange.validate (.ofNat 1) = true ∧ fullRange.toIndex (.ofNat 1) = .ok 2 ↔
      ∃ s, fullRange.simplest = .ok s ∧
        CanonicalRank (floatGlobalRank s + 2) :=
  (float_index_inverse fullRange).2.1 2 (.ofNat 1) (by decide +kernel)

end Choice

end Hegel
