/-
Positional numerals and the shortlex numbering of bounded digit strings.  A
string of digits below `base` whose length lies between two bounds is numbered
by length first and by its big-endian value among strings of its length; the
numbering is dense, and both directions are executable.
-/
import Mathlib.Data.Nat.Digits.Lemmas
import Mathlib.Data.List.Shortlex

namespace Hegel

namespace Numeration

/-- Big-endian value of a digit string, most significant digit first. -/
def positional (base : Nat) (digits : List Nat) : Nat :=
  digits.foldl (fun position digit => position * base + digit) 0

/-- The `length` lowest digits of a number, least significant first. -/
def lowDigits (base : Nat) : Nat → Nat → List Nat
  | 0, _ => []
  | length + 1, remaining =>
      remaining % base :: lowDigits base length (remaining / base)

/-- How many digit strings there are with a length in the list. -/
def bucketSum (base : Nat) (lengths : List Nat) : Nat :=
  lengths.foldl (fun offset length => offset + base ^ length) 0

/-- The number of a digit string: all shorter admissible strings come first. -/
def shortlexRank (base minSize : Nat) (digits : List Nat) : Nat :=
  bucketSum base (List.range' minSize (digits.length - minSize)) +
    positional base digits

/-- Walk the length buckets until the remaining number falls inside one. -/
def unrankLoop (base : Nat) : List Nat → Nat → Option (List Nat)
  | [], _ => none
  | length :: rest, remaining =>
      if remaining < base ^ length then
        some (lowDigits base length remaining).reverse
      else unrankLoop base rest (remaining - base ^ length)

/-- The digit string at a number, when one is that far down the list. -/
def shortlexUnrank (base minSize maxSize index : Nat) : Option (List Nat) :=
  unrankLoop base (List.range' minSize (maxSize + 1 - minSize)) index

/-- The digit strings being numbered. -/
structure Admissible (base minSize maxSize : Nat) (digits : List Nat) :
    Prop where
  minSize_le : minSize ≤ digits.length
  le_maxSize : digits.length ≤ maxSize
  digit_lt : ∀ digit ∈ digits, digit < base

theorem positional_eq_ofDigits (base : Nat) (digits : List Nat) :
    positional base digits = Nat.ofDigits base digits.reverse := by
  induction digits using List.reverseRecOn with
  | nil => rfl
  | append_singleton front digit ih =>
      rw [positional, List.foldl_append, List.foldl_cons, List.foldl_nil,
        ← positional, ih, List.reverse_append, List.reverse_singleton,
        List.singleton_append, Nat.ofDigits_cons]
      ring

/-- Digits below the base denote a number below the next power, for every
base: a digit string over base zero is empty. -/
theorem ofDigits_lt_pow {base : Nat} {digits : List Nat}
    (hdigits : ∀ digit ∈ digits, digit < base) :
    Nat.ofDigits base digits < base ^ digits.length := by
  induction digits with
  | nil => simp
  | cons digit rest ih =>
      have hdigit : digit < base := hdigits digit List.mem_cons_self
      have hrest := ih fun d hd => hdigits d (List.mem_cons_of_mem digit hd)
      have hstep : base * (Nat.ofDigits base rest + 1) ≤
          base * base ^ rest.length := Nat.mul_le_mul_left base hrest
      rw [Nat.ofDigits_cons, List.length_cons, pow_succ']
      rw [Nat.mul_add] at hstep
      omega

theorem positional_lt {base : Nat} {digits : List Nat}
    (hdigits : ∀ digit ∈ digits, digit < base) :
    positional base digits < base ^ digits.length := by
  rw [positional_eq_ofDigits, ← List.length_reverse]
  apply ofDigits_lt_pow
  intro digit hdigit
  exact hdigits digit (List.mem_reverse.mp hdigit)

@[simp] theorem length_lowDigits (base length remaining : Nat) :
    (lowDigits base length remaining).length = length := by
  induction length generalizing remaining with
  | zero => rfl
  | succ n ih => simp [lowDigits, ih]

/-- Below `base ^ length` a positive length forces a positive base. -/
theorem lowDigits_digit_lt {base length remaining : Nat}
    (hremaining : remaining < base ^ length) :
    ∀ digit ∈ lowDigits base length remaining, digit < base := by
  induction length generalizing remaining with
  | zero => simp [lowDigits]
  | succ n ih =>
      have hbase : 0 < base := by
        rcases Nat.eq_zero_or_pos base with rfl | hpos
        · simp at hremaining
        · exact hpos
      intro digit hdigit
      rcases List.mem_cons.mp hdigit with rfl | htail
      · exact Nat.mod_lt remaining hbase
      · apply ih _ digit htail
        rw [pow_succ] at hremaining
        exact Nat.div_lt_of_lt_mul (by rwa [Nat.mul_comm] at hremaining)

theorem ofDigits_lowDigits {base length remaining : Nat}
    (hremaining : remaining < base ^ length) :
    Nat.ofDigits base (lowDigits base length remaining) = remaining := by
  induction length generalizing remaining with
  | zero =>
      have hzero : remaining = 0 := by simpa using hremaining
      simp [lowDigits, hzero]
  | succ n ih =>
      have htail : remaining / base < base ^ n := by
        rw [pow_succ] at hremaining
        exact Nat.div_lt_of_lt_mul (by rwa [Nat.mul_comm] at hremaining)
      rw [lowDigits, Nat.ofDigits_cons, ih htail]
      exact Nat.mod_add_div remaining base

theorem lowDigits_ofDigits {base : Nat} {digits : List Nat}
    (hdigits : ∀ digit ∈ digits, digit < base) :
    lowDigits base digits.length (Nat.ofDigits base digits) = digits := by
  induction digits with
  | nil => rfl
  | cons digit rest ih =>
      have hdigit : digit < base := hdigits digit List.mem_cons_self
      have hrest := ih fun d hd => hdigits d (List.mem_cons_of_mem digit hd)
      have hbase : 0 < base := Nat.zero_lt_of_lt hdigit
      have hmod : (digit + base * Nat.ofDigits base rest) % base = digit := by
        rw [Nat.add_mul_mod_self_left, Nat.mod_eq_of_lt hdigit]
      have hdiv : (digit + base * Nat.ofDigits base rest) / base =
          Nat.ofDigits base rest := by
        rw [Nat.add_mul_div_left _ _ hbase, Nat.div_eq_of_lt hdigit,
          Nat.zero_add]
      rw [List.length_cons, Nat.ofDigits_cons, lowDigits, hmod,
        hdiv, hrest]

theorem bucketSum_cons (base length : Nat) (rest : List Nat) :
    bucketSum base (length :: rest) = base ^ length + bucketSum base rest := by
  have hshift : ∀ (lengths : List Nat) (offset : Nat),
      lengths.foldl (fun offset length => offset + base ^ length) offset =
        offset + bucketSum base lengths := by
    intro lengths
    induction lengths with
    | nil => simp [bucketSum]
    | cons head tail ih =>
        intro offset
        rw [bucketSum, List.foldl_cons, List.foldl_cons, ih, ih]
        omega
  rw [bucketSum, List.foldl_cons, hshift, Nat.zero_add]

theorem shortlexRank_of_length_eq {base minSize : Nat} {digits : List Nat}
    (hlength : digits.length = minSize) :
    shortlexRank base minSize digits = positional base digits := by
  simp [shortlexRank, hlength, bucketSum]

/-- Raising the lower length bound removes exactly the shortest bucket. -/
theorem shortlexRank_of_lt_length {base minSize : Nat} {digits : List Nat}
    (hlength : minSize < digits.length) :
    shortlexRank base minSize digits =
      base ^ minSize + shortlexRank base (minSize + 1) digits := by
  obtain ⟨extra, hextra⟩ :
      ∃ extra, digits.length - minSize = extra + 1 :=
    ⟨digits.length - minSize - 1, by omega⟩
  rw [shortlexRank, shortlexRank, hextra, List.range'_succ, bucketSum_cons,
    show digits.length - (minSize + 1) = extra by omega]
  omega

theorem reverse_lowDigits_positional {base : Nat} {digits : List Nat}
    (hdigits : ∀ digit ∈ digits, digit < base) :
    (lowDigits base digits.length (positional base digits)).reverse =
      digits := by
  have hreverse : ∀ digit ∈ digits.reverse, digit < base := by
    intro digit hdigit
    exact hdigits digit (List.mem_reverse.mp hdigit)
  have hlow := lowDigits_ofDigits hreverse
  rw [List.length_reverse] at hlow
  rw [positional_eq_ofDigits, hlow, List.reverse_reverse]

theorem positional_reverse_lowDigits {base length remaining : Nat}
    (hremaining : remaining < base ^ length) :
    positional base (lowDigits base length remaining).reverse =
      remaining := by
  rw [positional_eq_ofDigits, List.reverse_reverse,
    ofDigits_lowDigits hremaining]

/-- The bucket walk finds every digit string whose length it visits. -/
theorem unrankLoop_shortlexRank {base : Nat} {digits : List Nat}
    (hdigits : ∀ digit ∈ digits, digit < base) {minSize buckets : Nat}
    (hmin : minSize ≤ digits.length)
    (hmax : digits.length < minSize + buckets) :
    unrankLoop base (List.range' minSize buckets)
      (shortlexRank base minSize digits) = some digits := by
  induction buckets generalizing minSize with
  | zero => omega
  | succ buckets ih =>
      rw [List.range'_succ, unrankLoop]
      rcases Nat.eq_or_lt_of_le hmin with hlength | hlength
      · have hbelow : shortlexRank base minSize digits < base ^ minSize := by
          rw [shortlexRank_of_length_eq hlength.symm, hlength]
          exact positional_lt hdigits
        rw [if_pos hbelow, shortlexRank_of_length_eq hlength.symm, hlength,
          reverse_lowDigits_positional hdigits]
      · rw [shortlexRank_of_lt_length hlength,
          if_neg (Nat.not_lt.mpr (Nat.le_add_right _ _)),
          Nat.add_sub_cancel_left]
        exact ih hlength (by omega)

/-- Whatever the bucket walk returns has the number it was asked for. -/
theorem unrankLoop_eq_some {base minSize buckets index : Nat}
    {digits : List Nat}
    (hdigits :
      unrankLoop base (List.range' minSize buckets) index = some digits) :
    (∀ digit ∈ digits, digit < base) ∧ minSize ≤ digits.length ∧
      digits.length < minSize + buckets ∧
      shortlexRank base minSize digits = index := by
  induction buckets generalizing minSize index with
  | zero => simp [unrankLoop] at hdigits
  | succ buckets ih =>
      rw [List.range'_succ, unrankLoop] at hdigits
      split at hdigits
      case isTrue hbelow =>
        cases hdigits
        have hlength : (lowDigits base minSize index).reverse.length =
            minSize := by simp
        refine ⟨?_, by omega, by omega, ?_⟩
        · intro digit hdigit
          exact lowDigits_digit_lt hbelow digit (List.mem_reverse.mp hdigit)
        · rw [shortlexRank_of_length_eq hlength,
            positional_reverse_lowDigits hbelow]
      case isFalse habove =>
        obtain ⟨hlt, hmin, hmax, hrank⟩ := ih hdigits
        refine ⟨hlt, by omega, by omega, ?_⟩
        rw [shortlexRank_of_lt_length hmin, hrank]
        omega

theorem unrankLoop_eq_none_iff (base : Nat) (lengths : List Nat)
    (index : Nat) :
    unrankLoop base lengths index = none ↔
      bucketSum base lengths ≤ index := by
  induction lengths generalizing index with
  | nil => simp [unrankLoop, bucketSum]
  | cons length rest ih =>
      rw [unrankLoop, bucketSum_cons]
      split
      case isTrue hbelow =>
        refine ⟨fun h => by simp at h, fun h => by omega⟩
      case isFalse habove =>
        rw [ih]
        omega

/-- Decoding a number inverts numbering. -/
theorem shortlexUnrank_shortlexRank {base minSize maxSize : Nat}
    {digits : List Nat} (hdigits : Admissible base minSize maxSize digits) :
    shortlexUnrank base minSize maxSize (shortlexRank base minSize digits) =
      some digits := by
  have hmin := hdigits.minSize_le
  have hmax := hdigits.le_maxSize
  exact unrankLoop_shortlexRank hdigits.digit_lt hmin (by omega)

/-- Every decoded string is admissible and has the number it came from. -/
theorem shortlexUnrank_eq_some {base minSize maxSize index : Nat}
    {digits : List Nat}
    (hdigits : shortlexUnrank base minSize maxSize index = some digits) :
    Admissible base minSize maxSize digits ∧
      shortlexRank base minSize digits = index := by
  obtain ⟨hlt, hmin, hmax, hrank⟩ := unrankLoop_eq_some hdigits
  exact ⟨⟨hmin, by omega, hlt⟩, hrank⟩

/-- The numbers that decode are exactly those below the number of admissible
strings. -/
theorem shortlexUnrank_eq_none_iff (base minSize maxSize index : Nat) :
    shortlexUnrank base minSize maxSize index = none ↔
      bucketSum base (List.range' minSize (maxSize + 1 - minSize)) ≤
        index :=
  unrankLoop_eq_none_iff base _ index

theorem bucketSum_append (base : Nat) (front back : List Nat) :
    bucketSum base (front ++ back) =
      bucketSum base front + bucketSum base back := by
  induction front with
  | nil => simp [bucketSum]
  | cons head tail ih =>
      rw [List.cons_append, bucketSum_cons, bucketSum_cons, ih]
      omega

theorem bucketSum_range'_succ (base minSize buckets : Nat) :
    bucketSum base (List.range' minSize (buckets + 1)) =
      bucketSum base (List.range' minSize buckets) +
        base ^ (minSize + buckets) := by
  rw [List.range'_concat, bucketSum_append, bucketSum_cons]
  simp [bucketSum]

theorem bucketSum_range'_mono (base minSize : Nat) {fewer more : Nat}
    (hle : fewer ≤ more) :
    bucketSum base (List.range' minSize fewer) ≤
      bucketSum base (List.range' minSize more) := by
  induction hle with
  | refl => exact Nat.le_refl _
  | step _ ih =>
      rw [bucketSum_range'_succ]
      omega

theorem positional_cons (base digit : Nat) (rest : List Nat) :
    positional base (digit :: rest) =
      digit * base ^ rest.length + positional base rest := by
  rw [positional_eq_ofDigits, positional_eq_ofDigits, List.reverse_cons,
    Nat.ofDigits_append, List.length_reverse, Nat.ofDigits_singleton]
  ring

/-- Among strings of one length the numeral order is the dictionary order. -/
theorem positional_lt_iff_lex {base : Nat} {left right : List Nat}
    (hlength : left.length = right.length)
    (hleft : ∀ digit ∈ left, digit < base)
    (hright : ∀ digit ∈ right, digit < base) :
    positional base left < positional base right ↔
      List.Lex (· < ·) left right := by
  induction left generalizing right with
  | nil =>
      have hnil : right = [] := List.length_eq_zero_iff.mp hlength.symm
      subst hnil
      simp
  | cons digit rest ih =>
      cases right with
      | nil => simp at hlength
      | cons digit' rest' =>
          have hrestLength : rest.length = rest'.length := by
            simpa using hlength
          have hrest := positional_lt
            fun d hd => hleft d (List.mem_cons_of_mem digit hd)
          have hrest' := positional_lt
            fun d hd => hright d (List.mem_cons_of_mem digit' hd)
          have hih := ih hrestLength
            (fun d hd => hleft d (List.mem_cons_of_mem digit hd))
            (fun d hd => hright d (List.mem_cons_of_mem digit' hd))
          rw [positional_cons, positional_cons, hrestLength]
          rw [hrestLength] at hrest
          rcases Nat.lt_trichotomy digit digit' with hlt | heq | hgt
          · have hstep : (digit + 1) * base ^ rest'.length ≤
                digit' * base ^ rest'.length :=
              Nat.mul_le_mul_right _ hlt
            rw [Nat.add_mul] at hstep
            exact ⟨fun _ => List.Lex.rel hlt, fun _ => by omega⟩
          · subst heq
            rw [Nat.add_lt_add_iff_left, hih, List.lex_cons_iff]
          · have hstep : (digit' + 1) * base ^ rest'.length ≤
                digit * base ^ rest'.length :=
              Nat.mul_le_mul_right _ hgt
            rw [Nat.add_mul] at hstep
            refine ⟨fun h => by omega, fun h => ?_⟩
            cases h with
            | rel h => omega
            | cons h => omega

/-- A string's number lies between the sizes of the buckets around it. -/
theorem shortlexRank_bounds {base minSize : Nat} {digits : List Nat}
    (hdigits : ∀ digit ∈ digits, digit < base)
    (hmin : minSize ≤ digits.length) :
    bucketSum base (List.range' minSize (digits.length - minSize)) ≤
        shortlexRank base minSize digits ∧
      shortlexRank base minSize digits <
        bucketSum base
          (List.range' minSize (digits.length - minSize + 1)) := by
  have hposition := positional_lt hdigits
  rw [bucketSum_range'_succ, Nat.add_sub_cancel' hmin, shortlexRank]
  omega

/-- The numbering is strictly monotone for the shortlex order and reflects
it. -/
theorem shortlexRank_lt_iff_shortlex {base minSize maxSize : Nat}
    {left right : List Nat}
    (hleft : Admissible base minSize maxSize left)
    (hright : Admissible base minSize maxSize right) :
    shortlexRank base minSize left < shortlexRank base minSize right ↔
      List.Shortlex (· < ·) left right := by
  obtain ⟨hlowLeft, hhighLeft⟩ :=
    shortlexRank_bounds hleft.digit_lt hleft.minSize_le
  obtain ⟨hlowRight, hhighRight⟩ :=
    shortlexRank_bounds hright.digit_lt hright.minSize_le
  have hminLeft := hleft.minSize_le
  have hminRight := hright.minSize_le
  rw [List.shortlex_def]
  rcases Nat.lt_trichotomy left.length right.length with hlt | heq | hgt
  · have hmono := bucketSum_range'_mono base minSize
      (show left.length - minSize + 1 ≤ right.length - minSize by omega)
    exact ⟨fun _ => Or.inl hlt, fun _ => by omega⟩
  · rw [shortlexRank, shortlexRank, heq, Nat.add_lt_add_iff_left,
      positional_lt_iff_lex heq hleft.digit_lt hright.digit_lt]
    refine ⟨fun h => Or.inr ⟨rfl, h⟩, fun h => ?_⟩
    rcases h with h | ⟨_, h⟩
    · omega
    · exact h
  · have hmono := bucketSum_range'_mono base minSize
      (show right.length - minSize + 1 ≤ left.length - minSize by omega)
    refine ⟨fun h => by omega, fun h => ?_⟩
    rcases h with h | ⟨h, _⟩ <;> omega

end Numeration

end Hegel
