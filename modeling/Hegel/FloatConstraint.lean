/-
The simplest value of a float constraint.  It is valid, and no valid float has
a smaller rank.  The two signs are treated alike by mirroring the constraint.
-/
import Hegel.Choices
import Hegel.FloatSimplest

namespace Hegel

open Binary64

section Order

variable {v w x y : Binary64}

@[simp] theorem orderKey_neg (v : Binary64) :
    v.neg.orderKey = -v.orderKey := by
  rw [orderKey, orderKey, isSignNegative_neg, magnitude_neg]
  cases v.isSignNegative <;> simp

@[simp] theorem isNan_neg (v : Binary64) : v.neg.isNan = v.isNan := by
  rw [isNan, isNan, magnitude_neg]

@[simp] theorem isInfinite_neg (v : Binary64) :
    v.neg.isInfinite = v.isInfinite := by
  rw [isInfinite, isInfinite, magnitude_neg]

@[simp] theorem abs_neg (v : Binary64) : v.neg.abs = v.abs := by
  apply ext_bits
  rw [bits_abs, bits_abs, magnitude_neg]

theorem le_iff (hx : x.isNan = false) (hy : y.isNan = false) :
    x.le y = true ↔ x.orderKey ≤ y.orderKey := by
  simp [le, hx, hy]

theorem lt_iff (hx : x.isNan = false) (hy : y.isNan = false) :
    x.lt y = true ↔ x.orderKey < y.orderKey := by
  simp [lt, hx, hy]

theorem numEq_zero_iff (hx : x.isNan = false) :
    x.numEq .zero = true ↔ x.orderKey = 0 := by
  simp [numEq, hx, show zero.isNan = false by decide,
    show zero.orderKey = 0 by decide]

/-- A positive finite float. -/
structure IsPositive (v : Binary64) : Prop where
  pos : 0 < v.bits
  finite : v.bits < 2047 * 2 ^ 52

namespace IsPositive

theorem sign (hv : IsPositive v) : v.isSignNegative = false := by
  have hfinite := hv.finite
  rw [isSignNegative_eq_false_iff]
  omega

theorem magnitude (hv : IsPositive v) : v.magnitude = v.bits :=
  magnitude_of_nonneg ((isSignNegative_eq_false_iff v).mp hv.sign)

theorem isNan (hv : IsPositive v) : v.isNan = false := by
  have hfinite := hv.finite
  rw [Binary64.isNan, hv.magnitude, decide_eq_false_iff_not]
  omega

theorem isInfinite (hv : IsPositive v) : v.isInfinite = false := by
  have hfinite := hv.finite
  rw [Binary64.isInfinite, hv.magnitude, decide_eq_false_iff_not]
  omega

theorem orderKey (hv : IsPositive v) : v.orderKey = v.bits := by
  rw [Binary64.orderKey, hv.sign, hv.magnitude]
  rfl

theorem abs (hv : IsPositive v) : v.abs = v := by
  apply ext_bits
  rw [bits_abs, hv.magnitude]

end IsPositive

theorem orderKey_of_sign (hv : v.isSignNegative = false) :
    v.orderKey = v.bits := by
  rw [orderKey, hv, magnitude_of_nonneg
    ((isSignNegative_eq_false_iff v).mp hv)]
  rfl

theorem sign_of_orderKey_pos (hv : 0 < v.orderKey) :
    v.isSignNegative = false := by
  rw [orderKey] at hv
  by_contra hsign
  rw [Bool.not_eq_false] at hsign
  rw [hsign] at hv
  simp only [if_true] at hv
  omega

/-- A datum that is not a number keeps out of the larger of two values. -/
theorem max_cases (hx : x.isNan = false) :
    (x.max y).isNan = false ∧ x.orderKey ≤ (x.max y).orderKey ∧
      (y.isNan = false → y.orderKey ≤ (x.max y).orderKey) ∧
      ∀ z : Int, x.orderKey ≤ z → (y.isNan = false → y.orderKey ≤ z) →
        (x.max y).orderKey ≤ z := by
  rw [Binary64.max, hx]
  simp only [Bool.false_eq_true, if_false]
  cases hy : y.isNan with
  | true => exact ⟨hx, le_refl _, by simp, fun z hz _ => hz⟩
  | false =>
      simp only [Bool.false_eq_true, if_false]
      by_cases hlt : x.lt y = true
      · rw [if_pos hlt]
        rw [lt_iff hx hy] at hlt
        exact ⟨hy, hlt.le, fun _ => le_refl _, fun z _ hz => hz trivial⟩
      · rw [if_neg hlt]
        rw [lt_iff hx hy] at hlt
        exact ⟨hx, le_refl _, fun _ => by omega, fun z hz _ => hz⟩

theorem min_cases (hx : x.isNan = false) (hy : y.isNan = false) :
    (x.min y).isNan = false ∧ (x.min y).orderKey ≤ x.orderKey ∧
      (x.min y).orderKey ≤ y.orderKey ∧
      ∀ z : Int, z ≤ x.orderKey → z ≤ y.orderKey →
        z ≤ (x.min y).orderKey := by
  rw [Binary64.min, hx, hy]
  simp only [Bool.false_eq_true, if_false]
  by_cases hlt : y.lt x = true
  · rw [if_pos hlt]
    rw [lt_iff hy hx] at hlt
    exact ⟨hy, hlt.le, le_refl _, fun z _ hz => hz⟩
  · rw [if_neg hlt]
    rw [lt_iff hy hx] at hlt
    exact ⟨hx, le_refl _, by omega, fun z hz _ => hz⟩

end Order

namespace FloatChoice

/-- The same constraint for the opposite signs. -/
def mirror (fc : FloatChoice) : FloatChoice where
  minValue := fc.maxValue.neg
  maxValue := fc.minValue.neg
  allowNan := fc.allowNan
  allowInfinity := fc.allowInfinity
  smallestNonzeroMagnitude := fc.smallestNonzeroMagnitude
  minValue_number := by rw [isNan_neg, fc.maxValue_number]
  maxValue_number := by rw [isNan_neg, fc.minValue_number]

section Validity

variable {fc : FloatChoice} {v w : Binary64}

/-- What is required of a finite float other than zero. -/
theorem validate_iff (hnan : v.isNan = false) (hinf : v.isInfinite = false)
    (hzero : v.orderKey ≠ 0) :
    fc.validate v = true ↔
      v.abs.lt fc.smallestNonzeroMagnitude = false ∧
        fc.minValue.orderKey ≤ v.orderKey ∧
          v.orderKey ≤ fc.maxValue.orderKey := by
  have hne : v.numEq .zero = false := by
    rw [← Bool.not_eq_true, numEq_zero_iff hnan]
    exact hzero
  have hlow : signAwareLte fc.minValue v = fc.minValue.le v := by
    rw [signAwareLte, hne, Bool.and_false]
    rfl
  have hhigh : signAwareLte v fc.maxValue = v.le fc.maxValue := by
    rw [signAwareLte, hne, Bool.false_and]
    rfl
  rw [validate, hnan, hinf, hne, hlow, hhigh, ← le_iff fc.minValue_number hnan,
    ← le_iff hnan fc.maxValue_number]
  cases v.abs.lt fc.smallestNonzeroMagnitude <;> simp

theorem validate_mirror (hnan : v.isNan = false)
    (hinf : v.isInfinite = false) (hzero : v.orderKey ≠ 0) :
    fc.mirror.validate v.neg = true ↔ fc.validate v = true := by
  rw [validate_iff hnan hinf hzero, validate_iff (by rwa [isNan_neg])
    (by rwa [isInfinite_neg]) (by rw [orderKey_neg]; omega), abs_neg,
    orderKey_neg, mirror, orderKey_neg, orderKey_neg]
  constructor
  · rintro ⟨hmagnitude, hlow, hhigh⟩
    exact ⟨hmagnitude, by omega, by omega⟩
  · rintro ⟨hmagnitude, hlow, hhigh⟩
    exact ⟨hmagnitude, by omega, by omega⟩

/-- The positive valid floats form a range, if there are any. -/
theorem simplestPositive_spec
    (hmin : 0 < fc.maxValue.orderKey → 0 < fc.minValue.orderKey) :
    (∀ key v, fc.simplestPositive = some (key, v) →
      key = (floatToIndex v, false) ∧ IsPositive v ∧ fc.validate v = true ∧
        ∀ w, IsPositive w → fc.validate w = true →
          floatToIndex v ≤ floatToIndex w) ∧
    (fc.simplestPositive = none →
      ∀ w, IsPositive w → fc.validate w = false) := by
  have hzeroKey : zero.orderKey = 0 := by decide
  have hmaxFinite : maxFinite.isNan = false ∧
      maxFinite.orderKey = 2047 * 2 ^ 52 - 1 := by decide
  have hvalid : ∀ w, IsPositive w → (fc.validate w = true ↔
      w.lt fc.smallestNonzeroMagnitude = false ∧
        fc.minValue.orderKey ≤ w.bits ∧ (w.bits : Int) ≤ fc.maxValue.orderKey) := by
    intro w hw
    have hpos := hw.pos
    rw [validate_iff hw.isNan hw.isInfinite (by rw [hw.orderKey]; omega),
      hw.abs, hw.orderKey]
  rw [simplestPositive]
  by_cases hmax : zero.lt fc.maxValue = true
  · rw [if_pos hmax]
    rw [lt_iff (by decide) fc.maxValue_number, hzeroKey] at hmax
    have hminPos := hmin hmax
    obtain ⟨hloNan, hloMin, hloSmall, hloLeast⟩ :=
      max_cases (y := fc.smallestNonzeroMagnitude) fc.minValue_number
    obtain ⟨hhiNan, hhiMax, hhiFinite, hhiGreatest⟩ :=
      min_cases fc.maxValue_number hmaxFinite.1
    simp only []
    generalize fc.minValue.max fc.smallestNonzeroMagnitude = lo at *
    generalize fc.maxValue.min maxFinite = hi at *
    rw [hmaxFinite.2] at hhiFinite hhiGreatest
    have hloSign := sign_of_orderKey_pos (lt_of_lt_of_le hminPos hloMin)
    have hloKey := orderKey_of_sign hloSign
    have hinside : ∀ w, IsPositive w → (fc.validate w = true ↔
        lo.orderKey ≤ w.bits ∧ (w.bits : Int) ≤ hi.orderKey) := by
      intro w hw
      have hfinite := hw.finite
      rw [hvalid w hw]
      constructor
      · rintro ⟨hsmall, hlow, hhigh⟩
        refine ⟨hloLeast _ hlow fun hnan => ?_, hhiGreatest _ hhigh (by omega)⟩
        rw [← Bool.not_eq_true, lt_iff hw.isNan hnan, hw.orderKey] at hsmall
        omega
      · rintro ⟨hlow, hhigh⟩
        refine ⟨?_, by omega, by omega⟩
        cases hnan : fc.smallestNonzeroMagnitude.isNan with
        | true => simp [lt, hnan]
        | false =>
            rw [← Bool.not_eq_true, lt_iff hw.isNan hnan, hw.orderKey]
            have hsmall := hloSmall hnan
            omega
    by_cases hle : lo.le hi = true
    · rw [if_pos hle]
      rw [le_iff hloNan hhiNan] at hle
      have hhiSign := sign_of_orderKey_pos (v := hi) (by omega)
      have hhiKey := orderKey_of_sign hhiSign
      have hrange : PositiveRange lo hi := ⟨by omega, by omega, by omega⟩
      obtain ⟨hsign, hge, hleHi, hminimal⟩ :=
        isSimplestIn_simplestInRange hrange
      refine ⟨?_, by simp⟩
      rintro key v heq
      rw [Option.some.injEq, Prod.mk.injEq] at heq
      obtain ⟨rfl, rfl⟩ := heq
      have hpositive : IsPositive (simplestInRange lo hi) :=
        ⟨by omega, by omega⟩
      refine ⟨rfl, hpositive, ?_, ?_⟩
      · rw [hinside _ hpositive]
        omega
      · intro w hw hwvalid
        rw [hinside w hw] at hwvalid
        exact hminimal w hw.sign (by omega) (by omega)
    · rw [if_neg hle]
      rw [le_iff hloNan hhiNan] at hle
      refine ⟨by simp, fun _ w hw => ?_⟩
      rw [← Bool.not_eq_true, hinside w hw]
      omega
  · rw [if_neg hmax]
    rw [lt_iff (by decide) fc.maxValue_number, hzeroKey] at hmax
    refine ⟨by simp, fun _ w hw => ?_⟩
    have hpos := hw.pos
    rw [← Bool.not_eq_true, hvalid w hw]
    omega

/-- A zero is valid wherever the range reaches past it. -/
theorem validate_zero (hlow : fc.minValue.orderKey ≤ 0)
    (hhigh : 0 < fc.maxValue.orderKey) : fc.validate .zero = true := by
  have hzero : zero.numEq .zero = true := by decide
  have hkey : zero.orderKey = 0 := by decide
  have hmax : fc.maxValue.numEq .zero = false := by
    rw [← Bool.not_eq_true, numEq_zero_iff fc.maxValue_number]
    omega
  have hlte : signAwareLte fc.minValue .zero = true := by
    rw [signAwareLte, hzero, Bool.and_true]
    by_cases hmin : fc.minValue.numEq .zero = true
    · rw [if_pos hmin, decide_eq_true_eq,
        show zero.isSignNegative = false by decide]
      cases fc.minValue.isSignNegative <;> simp
    · rw [if_neg hmin, le_iff fc.minValue_number (by decide), hkey]
      exact hlow
  rw [validate, hzero, hlte, signAwareLte, hmax, Bool.and_false,
    show zero.isNan = false by decide, show zero.isInfinite = false by decide]
  simp only [Bool.not_true, Bool.false_and, Bool.false_eq_true, if_false,
    Bool.true_and]
  rw [le_iff (by decide) fc.maxValue_number, hkey]
  exact hhigh.le

theorem validate_negZero (hlow : fc.minValue.orderKey < 0)
    (hhigh : 0 ≤ fc.maxValue.orderKey) : fc.validate .negZero = true := by
  have hzero : negZero.numEq .zero = true := by decide
  have hkey : negZero.orderKey = 0 := by decide
  have hmin : fc.minValue.numEq .zero = false := by
    rw [← Bool.not_eq_true, numEq_zero_iff fc.minValue_number]
    omega
  have hlte : signAwareLte .negZero fc.maxValue = true := by
    rw [signAwareLte, hzero, Bool.true_and]
    by_cases hmax : fc.maxValue.numEq .zero = true
    · rw [if_pos hmax, decide_eq_true_eq,
        show negZero.isSignNegative = true by decide]
      cases fc.maxValue.isSignNegative <;> simp
    · rw [if_neg hmax, le_iff (by decide) fc.maxValue_number, hkey]
      exact hhigh
  rw [validate, hzero, hlte, signAwareLte, hmin, Bool.false_and,
    show negZero.isNan = false by decide,
    show negZero.isInfinite = false by decide]
  simp only [Bool.not_true, Bool.false_and, Bool.false_eq_true, if_false,
    Bool.and_true]
  rw [le_iff fc.minValue_number (by decide), hkey]
  exact hlow.le

end Validity

section Rank

variable {v w : Binary64}

/-- A float is a NaN, an infinity, a zero, or positive up to its sign. -/
theorem float_cases (v : Binary64) :
    v.isNan = true ∨ v = .infinity ∨ v = .negInfinity ∨ v = .zero ∨
      v = .negZero ∨ IsPositive v ∨ IsPositive v.neg := by
  have hlt := v.isLt
  by_cases hsign : v.bits < 2 ^ 63
  · have hmagnitude := magnitude_of_nonneg hsign
    by_cases hzero : v.bits = 0
    · right; right; right; left
      exact ext_bits hzero
    · rcases Nat.lt_trichotomy v.bits (2047 * 2 ^ 52) with hless | heq | hgreater
      · right; right; right; right; right; left
        exact ⟨by omega, hless⟩
      · right; left
        exact ext_bits heq
      · left
        rw [isNan, hmagnitude, decide_eq_true_eq]
        exact hgreater
  · have hmagnitude := magnitude_of_neg (Nat.le_of_not_lt hsign)
    have hneg := bits_neg_of_neg (Nat.le_of_not_lt hsign)
    by_cases hzero : v.bits = 2 ^ 63
    · right; right; right; right; left
      exact ext_bits hzero
    · rcases Nat.lt_trichotomy v.magnitude (2047 * 2 ^ 52) with
        hless | heq | hgreater
      · right; right; right; right; right; right
        constructor
        · omega
        · omega
      · right; right; left
        apply ext_bits
        have hbits : v.bits = 2 ^ 63 + 2047 * 2 ^ 52 := by omega
        exact hbits
      · left
        rw [isNan, decide_eq_true_eq]
        exact hgreater

theorem rank_positive (hv : IsPositive v) :
    floatGlobalRank v = floatToIndex v * 2 := by
  rw [floatGlobalRank, hv.isNan, hv.isInfinite, hv.sign]
  rfl

theorem rank_negative (hv : IsPositive v.neg) :
    floatGlobalRank v = floatToIndex v.neg * 2 + 1 := by
  have hnan := hv.isNan
  have hinf := hv.isInfinite
  have hsign := hv.sign
  rw [isNan_neg] at hnan
  rw [isInfinite_neg] at hinf
  rw [isSignNegative_neg, Bool.not_eq_false'] at hsign
  rw [floatGlobalRank, hnan, hinf, hsign]
  rfl

/-- An index of a positive float keeps within the ranks of finite floats. -/
theorem floatToIndex_positive_le (hv : IsPositive v) :
    floatToIndex v * 2 + 1 ≤ maxFiniteGlobalRank := by
  have hpos := hv.pos
  have hbits := hv.finite
  have hmax : maxFiniteGlobalRank =
      (2 ^ 63 + 2046 * 2 ^ 52 + (2 ^ 52 - 1)) * 2 + 1 := by decide
  rw [hmax]
  cases hsimple : isSimpleFloat v with
  | true =>
      have hfinite : v.isFinite = true := by
        rw [isFinite, hv.magnitude, decide_eq_true_eq]
        exact hbits
      obtain ⟨n, hn, hulps⟩ := (isSimpleFloat_iff hv.sign hfinite).mp hsimple
      rw [floatToIndex_simple hv.sign hfinite hn hulps]
      omega
  | false =>
      have hcode := mantissaCode_lt v.biasedExponent v.fraction_lt
      have hfinite : v.isFinite = true := by
        rw [isFinite, hv.magnitude, decide_eq_true_eq]
        exact hbits
      have henc := encodeExponent_le hfinite
      rw [floatToIndex_tagged hv.sign hsimple, taggedIndex]
      omega

theorem rank_finite_le (hv : IsPositive v ∨ IsPositive v.neg) :
    floatGlobalRank v ≤ maxFiniteGlobalRank := by
  rcases hv with hv | hv
  · have hle := floatToIndex_positive_le hv
    rw [rank_positive hv]
    omega
  · rw [rank_negative hv]
    exact floatToIndex_positive_le hv

theorem rank_nan (hv : v.isNan = true) :
    maxFiniteGlobalRank + 3 ≤ floatGlobalRank v := by
  rw [floatGlobalRank, if_pos hv]
  simp only []
  omega

/-- Only the zeros have the indices of zero. -/
theorem floatToIndex_pos (hv : IsPositive v) : 0 < floatToIndex v := by
  have hfinite : v.isFinite = true := by
    rw [isFinite, hv.magnitude, decide_eq_true_eq]
    exact hv.finite
  cases hsimple : isSimpleFloat v with
  | true =>
      obtain ⟨n, hn, hulps⟩ := (isSimpleFloat_iff hv.sign hfinite).mp hsimple
      rw [floatToIndex_simple hv.sign hfinite hn hulps]
      by_contra hzero
      have hpositive : zero.ulps < v.ulps := by
        apply ulps_lt_ulps
        rw [hv.magnitude]
        exact hv.pos
      rw [hulps, Nat.eq_zero_of_not_pos hzero, Nat.zero_mul] at hpositive
      exact Nat.not_lt_zero _ hpositive
  | false =>
      rw [floatToIndex_tagged hv.sign hsimple, taggedIndex]
      omega

theorem two_le_rank_finite (hv : IsPositive v ∨ IsPositive v.neg) :
    2 ≤ floatGlobalRank v := by
  rcases hv with hv | hv
  · have hpos := floatToIndex_pos hv
    rw [rank_positive hv]
    omega
  · have hpos := floatToIndex_pos hv
    rw [rank_negative hv]
    omega

theorem rank_zero : floatGlobalRank .zero = 0 := by decide

theorem rank_negZero : floatGlobalRank .negZero = 1 := by decide

theorem rank_infinity :
    floatGlobalRank .infinity = maxFiniteGlobalRank + 1 := by decide

theorem rank_negInfinity :
    floatGlobalRank .negInfinity = maxFiniteGlobalRank + 2 := by decide

theorem rank_canonical_nan :
    floatGlobalRank .nan = maxFiniteGlobalRank + 3 := by decide

end Rank

section Simplest

variable {fc : FloatChoice} {v w : Binary64}

theorem orderKey_positive (hv : IsPositive v) : 0 < v.orderKey := by
  have hpos := hv.pos
  rw [hv.orderKey]
  omega

/-- A negative float is valid where its mirror image is. -/
theorem validate_negative (hv : IsPositive v.neg) :
    fc.mirror.validate v.neg = true ↔ fc.validate v = true := by
  have hkey := orderKey_positive hv
  have hnan := hv.isNan
  have hinf := hv.isInfinite
  rw [isNan_neg] at hnan
  rw [isInfinite_neg] at hinf
  rw [orderKey_neg] at hkey
  exact validate_mirror hnan hinf (by omega)

/-- The negative candidate is the positive one of the mirror image. -/
theorem simplestFinite_eq (fc : FloatChoice) :
    fc.simplestFinite =
      match fc.simplestPositive, fc.mirror.simplestPositive with
      | best, none => best
      | none, some ((index, _), v) => some ((index, true), v.neg)
      | some (bestKey, best), some ((index, _), v) =>
          if keyLt (index, true) bestKey then some ((index, true), v.neg)
          else some (bestKey, best) := by
  have hside : fc.minValue.lt .zero = zero.lt fc.mirror.maxValue := by
    rw [Bool.eq_iff_iff, lt_iff fc.minValue_number (by decide),
      lt_iff (by decide) fc.mirror.maxValue_number,
      show zero.orderKey = 0 by decide, mirror, orderKey_neg]
    omega
  rw [simplestFinite, hside]
  generalize fc.simplestPositive = best
  by_cases hmax : zero.lt fc.mirror.maxValue = true
  · rw [if_pos hmax]
    by_cases hle : (fc.maxValue.neg.max fc.smallestNonzeroMagnitude).le
        (fc.minValue.neg.min maxFinite) = true
    · have hmirror : fc.mirror.simplestPositive = some _ :=
        (if_pos hmax).trans (if_pos hle)
      simp only [if_pos hle]
      rw [hmirror]
      cases best <;> rfl
    · have hmirror : fc.mirror.simplestPositive = none :=
        (if_pos hmax).trans (if_neg hle)
      simp only [if_neg hle]
      rw [hmirror]
  · have hmirror : fc.mirror.simplestPositive = none := if_neg hmax
    rw [if_neg hmax, hmirror]

/-- The finite candidate is the valid nonzero float of least rank. -/
theorem simplestFinite_spec
    (hmin : 0 < fc.maxValue.orderKey → 0 < fc.minValue.orderKey)
    (hmax : fc.minValue.orderKey < 0 → fc.maxValue.orderKey < 0) :
    (∀ key v, fc.simplestFinite = some (key, v) →
      (IsPositive v ∨ IsPositive v.neg) ∧ fc.validate v = true ∧
        ∀ w, IsPositive w ∨ IsPositive w.neg → fc.validate w = true →
          floatGlobalRank v ≤ floatGlobalRank w) ∧
    (fc.simplestFinite = none →
      ∀ w, IsPositive w ∨ IsPositive w.neg → fc.validate w = false) := by
  obtain ⟨hsome, hnone⟩ := simplestPositive_spec hmin
  obtain ⟨hsomeNeg, hnoneNeg⟩ :=
    @simplestPositive_spec fc.mirror (by
      rw [mirror, orderKey_neg, orderKey_neg]
      omega)
  -- the negative floats are the mirror images of the positive ones
  have hnegative : ∀ w, IsPositive w.neg →
      (fc.validate w = true ↔ fc.mirror.validate w.neg = true) :=
    fun w hw => (validate_negative hw).symm
  rw [simplestFinite_eq]
  cases hpositive : fc.simplestPositive with
  | none =>
      cases hmirror : fc.mirror.simplestPositive with
      | none =>
          refine ⟨by simp, fun _ w hw => ?_⟩
          rcases hw with hw | hw
          · exact hnone hpositive w hw
          · rw [← Bool.not_eq_true, hnegative w hw, Bool.not_eq_true]
            exact hnoneNeg hmirror w.neg hw
      | some best =>
          obtain ⟨⟨index, side⟩, u⟩ := best
          obtain ⟨hkey, hu, hvalid, hleast⟩ := hsomeNeg _ _ hmirror
          refine ⟨?_, by simp⟩
          rintro key v heq
          simp only [Option.some.injEq, Prod.mk.injEq] at heq
          obtain ⟨-, rfl⟩ := heq
          have hneg : IsPositive u.neg.neg := by rwa [neg_neg]
          refine ⟨.inr hneg, ?_, ?_⟩
          · rwa [hnegative _ hneg, neg_neg]
          · rintro w (hw | hw) hwvalid
            · rw [hnone hpositive w hw] at hwvalid
              contradiction
            · have hle := hleast w.neg hw ((hnegative w hw).mp hwvalid)
              rw [rank_negative hneg, rank_negative hw, neg_neg]
              omega
  | some best =>
      obtain ⟨⟨indexPos, sidePos⟩, p⟩ := best
      obtain ⟨hkeyPos, hp, hvalidPos, hleastPos⟩ := hsome _ _ hpositive
      obtain ⟨rfl, rfl⟩ := Prod.mk.inj hkeyPos
      cases hmirror : fc.mirror.simplestPositive with
      | none =>
          refine ⟨?_, by simp⟩
          rintro key v heq
          simp only [Option.some.injEq, Prod.mk.injEq] at heq
          obtain ⟨-, rfl⟩ := heq
          refine ⟨.inl hp, hvalidPos, ?_⟩
          rintro w (hw | hw) hwvalid
          · have hle := hleastPos w hw hwvalid
            rw [rank_positive hp, rank_positive hw]
            omega
          · rw [hnegative w hw, hnoneNeg hmirror w.neg hw] at hwvalid
            contradiction
      | some best =>
          obtain ⟨⟨index, side⟩, u⟩ := best
          obtain ⟨hkey, hu, hvalid, hleast⟩ := hsomeNeg _ _ hmirror
          obtain ⟨rfl, rfl⟩ := Prod.mk.inj hkey
          have hneg : IsPositive u.neg.neg := by rwa [neg_neg]
          have hrankNeg := rank_negative hneg
          rw [neg_neg] at hrankNeg
          -- every valid float is above the candidate of its own sign
          have hbound : ∀ w, IsPositive w ∨ IsPositive w.neg →
              fc.validate w = true →
                floatGlobalRank p ≤ floatGlobalRank w ∨
                  floatGlobalRank u.neg ≤ floatGlobalRank w := by
            rintro w (hw | hw) hwvalid
            · have hle := hleastPos w hw hwvalid
              rw [rank_positive hp, rank_positive hw]
              omega
            · have hle := hleast w.neg hw ((hnegative w hw).mp hwvalid)
              rw [hrankNeg, rank_negative hw]
              omega
          by_cases hless : keyLt (floatToIndex u, true) (floatToIndex p, false)
          · simp only [if_pos hless]
            refine ⟨?_, by simp⟩
            rintro key v heq
            simp only [Option.some.injEq, Prod.mk.injEq] at heq
            obtain ⟨-, rfl⟩ := heq
            refine ⟨.inr hneg, ?_, ?_⟩
            · rwa [hnegative _ hneg, neg_neg]
            · intro w hw hwvalid
              have hcase := hbound w hw hwvalid
              simp [keyLt] at hless
              rw [rank_positive hp] at hcase
              omega
          · simp only [if_neg hless]
            refine ⟨?_, by simp⟩
            rintro key v heq
            simp only [Option.some.injEq, Prod.mk.injEq] at heq
            obtain ⟨-, rfl⟩ := heq
            refine ⟨.inl hp, hvalidPos, ?_⟩
            intro w hw hwvalid
            have hcase := hbound w hw hwvalid
            simp [keyLt] at hless
            rw [rank_positive hp] at hcase ⊢
            omega

/-- An admitted infinity is allowed. -/
theorem allowInfinity_of_valid {v : Binary64}
    (hnan : v.isNan = false) (hinf : v.isInfinite = true)
    (hvalid : fc.validate v = true) : fc.allowInfinity = true := by
  rw [validate, hnan, hinf] at hvalid
  by_contra hnot
  rw [Bool.not_eq_true] at hnot
  simp [hnot] at hvalid

/-- The simplest value is the valid float of least rank. -/
theorem simplest_spec {s : Binary64} (hs : fc.simplest = .ok s) :
    fc.validate s = true ∧
      ∀ w, fc.validate w = true → floatGlobalRank s ≤ floatGlobalRank w := by
  rw [simplest] at hs
  by_cases hzero : fc.validate .zero = true
  · rw [if_pos hzero, Except.ok.injEq] at hs
    subst hs
    rw [rank_zero]
    exact ⟨hzero, fun w _ => Nat.zero_le _⟩
  rw [if_neg hzero] at hs
  by_cases hnegZero : fc.validate .negZero = true
  · rw [if_pos hnegZero, Except.ok.injEq] at hs
    subst hs
    refine ⟨hnegZero, fun w hw => ?_⟩
    rw [rank_negZero]
    rcases float_cases w with hnan | rfl | rfl | rfl | rfl | hfinite | hfinite
    · exact le_trans (by omega) (rank_nan hnan)
    · rw [rank_infinity]
      omega
    · rw [rank_negInfinity]
      omega
    · contradiction
    · rw [rank_negZero]
    · exact le_trans (by omega) (two_le_rank_finite (.inl hfinite))
    · exact le_trans (by omega) (two_le_rank_finite (.inr hfinite))
  rw [if_neg hnegZero] at hs
  obtain ⟨hsome, hnone⟩ := @simplestFinite_spec fc
    (fun hmax => by
      by_contra hmin
      exact hzero (validate_zero (by omega) hmax))
    (fun hmin => by
      by_contra hmax
      exact hnegZero (validate_negZero hmin (by omega)))
  cases hfinite : fc.simplestFinite with
  | some best =>
      obtain ⟨key, v⟩ := best
      rw [hfinite] at hs
      simp only [Except.ok.injEq] at hs
      subst hs
      obtain ⟨hv, hvalid, hleast⟩ := hsome _ _ hfinite
      refine ⟨hvalid, fun w hw => ?_⟩
      have hle := rank_finite_le hv
      rcases float_cases w with hnan | rfl | rfl | rfl | rfl | hpos | hpos
      · exact le_trans (by omega) (rank_nan hnan)
      · rw [rank_infinity]
        omega
      · rw [rank_negInfinity]
        omega
      · contradiction
      · contradiction
      · exact hleast w (.inl hpos) hw
      · exact hleast w (.inr hpos) hw
  | none =>
      rw [hfinite] at hs
      simp only [] at hs
      have hnofinite := hnone hfinite
      -- what is left is infinite or not a number
      have hcases : ∀ w, fc.validate w = true →
          w.isNan = true ∨ w = .infinity ∨ w = .negInfinity := by
        intro w hw
        rcases float_cases w with hnan | rfl | rfl | rfl | rfl | hpos | hpos
        · exact .inl hnan
        · exact .inr (.inl rfl)
        · exact .inr (.inr rfl)
        · contradiction
        · contradiction
        · rw [hnofinite w (.inl hpos)] at hw
          contradiction
        · rw [hnofinite w (.inr hpos)] at hw
          contradiction
      by_cases hinf : fc.validate .infinity = true
      · rw [allowInfinity_of_valid (by decide) (by decide) hinf, hinf] at hs
        simp only [Bool.and_self, if_true, Except.ok.injEq] at hs
        subst hs
        refine ⟨hinf, fun w hw => ?_⟩
        rw [rank_infinity]
        rcases hcases w hw with hnan | rfl | rfl
        · exact le_trans (by omega) (rank_nan hnan)
        · rw [rank_infinity]
        · rw [rank_negInfinity]
          omega
      rw [Bool.not_eq_true] at hinf
      by_cases hnegInf : fc.validate .negInfinity = true
      · rw [allowInfinity_of_valid (by decide) (by decide) hnegInf, hinf, hnegInf] at hs
        simp only [Bool.and_false, Bool.and_self, if_true,
          Bool.false_eq_true, if_false, Except.ok.injEq] at hs
        subst hs
        refine ⟨hnegInf, fun w hw => ?_⟩
        rw [rank_negInfinity]
        rcases hcases w hw with hnan | rfl | rfl
        · exact le_trans (by omega) (rank_nan hnan)
        · rw [hinf] at hw
          contradiction
        · rw [rank_negInfinity]
      rw [Bool.not_eq_true] at hnegInf
      rw [hinf, hnegInf, Bool.and_false] at hs
      simp only [Bool.false_eq_true, if_false] at hs
      cases hnan : fc.allowNan with
      | false => simp [hnan] at hs
      | true =>
          simp only [hnan, if_true, Except.ok.injEq] at hs
          subst hs
          refine ⟨?_, fun w hw => ?_⟩
          · rw [validate, if_pos (by decide)]
            exact hnan
          · rw [rank_canonical_nan]
            rcases hcases w hw with hwnan | rfl | rfl
            · exact rank_nan hwnan
            · rw [hinf] at hw
              contradiction
            · rw [hnegInf] at hw
              contradiction

theorem simplest_valid {s : Binary64} (hs : fc.simplest = .ok s) :
    fc.validate s = true :=
  (simplest_spec hs).1

/-- The stand-in for a value that does not fit is valid, too. -/
theorem unit_valid {u : Binary64} (hu : fc.unit = .ok u) :
    fc.validate u = true := by
  rw [unit] at hu
  cases hs : fc.simplest with
  | error e =>
      rw [hs] at hu
      cases hu
  | ok s =>
      have hvalid := simplest_valid hs
      rw [hs] at hu
      simp only [bind, Except.bind] at hu
      by_cases hnan : s.isNan = true
      · rw [if_pos hnan] at hu
        cases hu
        exact hvalid
      · rw [if_neg hnan] at hu
        split at hu
        case h_1 v hfind =>
          have hfound := List.find?_some hfind
          cases hu
          rw [Bool.and_eq_true] at hfound
          exact hfound.2
        case h_2 =>
          split at hu
          case h_1 v hfind =>
            have hfound := List.find?_some hfind
            cases hu
            rw [Bool.and_eq_true] at hfound
            exact hfound.2
          case h_2 =>
            cases hu
            exact hvalid

end Simplest

end FloatChoice

end Hegel
