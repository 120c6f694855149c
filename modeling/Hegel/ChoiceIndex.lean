/-
The dense indexes of integer, byte-string and codepoint-string choices.  Every
admitted value has its own number, every number up to the largest one is taken,
and the numbers follow the order of the sort keys.
-/
import Hegel.SortKey

namespace Hegel

/-- A dense numbering of the admitted values of one constraint, in the order
of their sort keys.  `Short` values are those the source's exponents are exact
for, and `Bounded` says that all admitted values are short. -/
structure IsDenseIndex {Value : Type} (Short : Value → Prop) (Bounded : Prop)
    (validate : Value → Bool) (maxIndex : Nat) (toIndex : Value → Nat)
    (fromIndex : Nat → Except InternalError (Option Value))
    (sortKeyRef : Value → NodeSortKeyRef) : Prop where
  /-- Decoding an index gives the value back. -/
  fromIndex_toIndex : ∀ v, validate v = true → Short v →
    fromIndex (toIndex v) = .ok (some v)
  /-- Every index up to the largest one stands for a value. -/
  toIndex_fromIndex : Bounded → ∀ i ≤ maxIndex, ∃ v,
    fromIndex i = .ok (some v) ∧ validate v = true ∧ toIndex v = i
  /-- No index above the largest one does. -/
  fromIndex_none : Bounded → ∀ i, maxIndex < i → fromIndex i = .ok none
  /-- Indexes follow the sort keys. -/
  toIndex_lt_iff : ∀ a b, validate a = true → validate b = true →
    Short a → Short b →
    (toIndex a < toIndex b ↔ (sortKeyRef a).cmp (sortKeyRef b) = .lt)

namespace IntegerChoice

theorem clampedShrinkTowards_bounds (ic : IntegerChoice) :
    ic.minValue ≤ ic.clampedShrinkTowards ∧
      ic.clampedShrinkTowards ≤ ic.maxValue := by
  have hordered := ic.ordered
  rw [clampedShrinkTowards]
  split
  · omega
  · split <;> omega

theorem validate_iff (ic : IntegerChoice) (v : Int) :
    ic.validate v = true ↔ ic.minValue ≤ v ∧ v ≤ ic.maxValue := by
  simp [validate]

/-- How many values lie above the preferred one. -/
def above (ic : IntegerChoice) : Nat :=
  (ic.maxValue - ic.simplest).natAbs

/-- How many values lie below the preferred one. -/
def below (ic : IntegerChoice) : Nat :=
  (ic.simplest - ic.minValue).natAbs

/-- An admitted value is the preferred one or lies on one of its sides. -/
theorem eq_simplest_or_side (ic : IntegerChoice) {v : Int}
    (hv : ic.validate v = true) :
    v = ic.simplest ∨
      (∃ d, 0 < d ∧ d ≤ ic.above ∧ v = ic.simplest + (d : Nat)) ∨
      (∃ d, 0 < d ∧ d ≤ ic.below ∧ v = ic.simplest - (d : Nat)) := by
  have hbounds := ic.clampedShrinkTowards_bounds
  rw [validate_iff] at hv
  simp only [above, below, simplest]
  rcases lt_trichotomy v ic.clampedShrinkTowards with hlt | heq | hgt
  · refine Or.inr (Or.inr ⟨(ic.clampedShrinkTowards - v).toNat, ?_⟩)
    omega
  · exact Or.inl heq
  · refine Or.inr (Or.inl ⟨(v - ic.clampedShrinkTowards).toNat, ?_⟩)
    omega

theorem validate_simplest (ic : IntegerChoice) :
    ic.validate ic.simplest = true := by
  rw [validate_iff]
  exact ic.clampedShrinkTowards_bounds

theorem validate_above (ic : IntegerChoice) {d : Nat} (hd : d ≤ ic.above) :
    ic.validate (ic.simplest + d) = true := by
  have hbounds := ic.clampedShrinkTowards_bounds
  rw [validate_iff]
  simp only [above, simplest] at hd ⊢
  omega

theorem validate_below (ic : IntegerChoice) {d : Nat} (hd : d ≤ ic.below) :
    ic.validate (ic.simplest - d) = true := by
  have hbounds := ic.clampedShrinkTowards_bounds
  rw [validate_iff]
  simp only [below, simplest] at hd ⊢
  omega

theorem maxIndex_eq (ic : IntegerChoice) :
    ic.maxIndex = ic.above + ic.below := by
  have hbounds := ic.clampedShrinkTowards_bounds
  simp only [maxIndex, above, below, simplest]
  omega

@[simp] theorem toIndex_simplest (ic : IntegerChoice) :
    ic.toIndex ic.simplest = 0 := by
  simp [toIndex]

theorem toIndex_above (ic : IntegerChoice) {d : Nat} (hd : 0 < d) :
    ic.toIndex (ic.simplest + d) =
      min (d - 1) ic.above + min (d - 1) ic.below + 1 := by
  have hdistance : (ic.simplest + d - ic.simplest).natAbs = d := by omega
  simp only [toIndex]
  rw [if_neg (by omega), if_pos (by omega), hdistance, above, below]

theorem toIndex_below (ic : IntegerChoice) {d : Nat} (hd : 0 < d) :
    ic.toIndex (ic.simplest - d) =
      min (d - 1) ic.above + min (d - 1) ic.below +
        (if d ≤ ic.above then 2 else 1) := by
  have hdistance : (ic.simplest - d - ic.simplest).natAbs = d := by omega
  simp only [toIndex]
  rw [if_neg (by omega), if_neg (by omega), hdistance, above, below]
  split <;> omega

/-- While both sides last, odd indexes go up and even ones down; once one side
is used up, the other one is walked alone. -/
theorem fromIndex_eq (ic : IntegerChoice) {index : Nat}
    (hpos : 0 < index) (hle : index ≤ ic.above + ic.below) :
    ic.fromIndex index =
      if index ≤ min ic.above ic.below * 2 then
        if index % 2 = 1 then some (ic.simplest + ((index + 1) / 2 : Nat))
        else some (ic.simplest - ((index + 1) / 2 : Nat))
      else if ic.above > ic.below then
        some (ic.simplest + ((index - min ic.above ic.below : Nat) : Int))
      else
        some (ic.simplest - ((index - min ic.above ic.below : Nat) : Int)) := by
  have hne : ¬index = 0 := by omega
  have hrange : ¬index > ic.above + ic.below := by omega
  have hodd : (index % 2 != 0) = decide (index % 2 = 1) := by
    rcases Nat.mod_two_eq_zero_or_one index with h | h <;> rw [h] <;> rfl
  have hunfold : ic.fromIndex index =
      if index = 0 then some ic.simplest
      else if index > ic.above + ic.below then none
      else
        let step : Nat × Bool :=
          if index ≤ min ic.above ic.below * 2 then
            ((index + 1) / 2, index % 2 != 0)
          else (index - min ic.above ic.below, decide (ic.above > ic.below))
        if step.2 then some (ic.simplest + step.1)
        else some (ic.simplest - step.1) := rfl
  rw [hunfold, if_neg hne, if_neg hrange, hodd]
  by_cases hboth : index ≤ min ic.above ic.below * 2
  · simp only [if_pos hboth, decide_eq_true_eq]
  · simp only [if_neg hboth, decide_eq_true_eq]

theorem fromIndex_of_le (ic : IntegerChoice) {index : Nat}
    (hpos : 0 < index) (hle : index ≤ min ic.above ic.below * 2) :
    ic.fromIndex index =
      if index % 2 = 1 then some (ic.simplest + ((index + 1) / 2 : Nat))
      else some (ic.simplest - ((index + 1) / 2 : Nat)) := by
  rw [fromIndex_eq ic hpos (by omega), if_pos hle]

theorem fromIndex_of_gt (ic : IntegerChoice) {index : Nat}
    (hgt : min ic.above ic.below * 2 < index)
    (hle : index ≤ ic.above + ic.below) :
    ic.fromIndex index =
      if ic.above > ic.below then
        some (ic.simplest + ((index - min ic.above ic.below : Nat) : Int))
      else
        some (ic.simplest - ((index - min ic.above ic.below : Nat) : Int)) := by
  rw [fromIndex_eq ic (by omega) hle, if_neg (by omega)]

theorem fromIndex_toIndex (ic : IntegerChoice) {v : Int}
    (hv : ic.validate v = true) : ic.fromIndex (ic.toIndex v) = some v := by
  rcases ic.eq_simplest_or_side hv with rfl | ⟨d, hpos, hd, rfl⟩ |
    ⟨d, hpos, hd, rfl⟩
  · simp [fromIndex]
  · rw [toIndex_above ic hpos]
    rcases Nat.lt_or_ge ic.below d with hexhausted | hboth
    · rw [fromIndex_of_gt ic (by omega) (by omega), if_pos (by omega)]
      exact congrArg some (by omega)
    · rw [fromIndex_of_le ic (by omega) (by omega), if_pos (by omega)]
      exact congrArg some (by omega)
  · rw [toIndex_below ic hpos]
    rcases Nat.lt_or_ge ic.above d with hexhausted | hboth
    · rw [if_neg (by omega), fromIndex_of_gt ic (by omega) (by omega),
        if_neg (by omega)]
      exact congrArg some (by omega)
    · rw [if_pos hboth, fromIndex_of_le ic (by omega) (by omega),
        if_neg (by omega)]
      exact congrArg some (by omega)

theorem toIndex_fromIndex (ic : IntegerChoice) {index : Nat}
    (hindex : index ≤ ic.maxIndex) :
    ∃ v, ic.fromIndex index = some v ∧ ic.validate v = true ∧
      ic.toIndex v = index := by
  rw [maxIndex_eq] at hindex
  rcases Nat.eq_zero_or_pos index with rfl | hpos
  · exact ⟨ic.simplest, by simp [fromIndex], ic.validate_simplest, by simp⟩
  · rcases Nat.lt_or_ge (min ic.above ic.below * 2) index with hgt | hle
    · rw [fromIndex_of_gt ic hgt hindex]
      split
      case isTrue hside =>
        refine ⟨_, rfl, ic.validate_above (by omega), ?_⟩
        rw [toIndex_above ic (by omega)]
        omega
      case isFalse hside =>
        refine ⟨_, rfl, ic.validate_below (by omega), ?_⟩
        rw [toIndex_below ic (by omega), if_neg (by omega)]
        omega
    · rw [fromIndex_of_le ic hpos hle]
      split
      case isTrue hodd =>
        refine ⟨_, rfl, ic.validate_above (by omega), ?_⟩
        rw [toIndex_above ic (by omega)]
        omega
      case isFalse heven =>
        refine ⟨_, rfl, ic.validate_below (by omega), ?_⟩
        rw [toIndex_below ic (by omega), if_pos (by omega)]
        omega

theorem fromIndex_none (ic : IntegerChoice) {index : Nat}
    (hindex : ic.maxIndex < index) : ic.fromIndex index = none := by
  rw [maxIndex_eq, above, below] at hindex
  simp only [fromIndex]
  rw [if_neg (by omega), if_pos (by omega)]

/-- Distance first, then the side: the order of the keys in terms of the
sides. -/
theorem sortKey_side (ic : IntegerChoice) (d : Nat) :
    ic.sortKey (ic.simplest + d) = (d, false) ∧
      (0 < d → ic.sortKey (ic.simplest - d) = (d, true)) := by
  have hup : ic.simplest + d - ic.simplest = d := by omega
  have hdown : (ic.simplest - d - ic.simplest).natAbs = d := by omega
  refine ⟨?_, fun hpos => ?_⟩
  · refine Prod.ext (congrArg Int.natAbs hup) (decide_eq_false ?_)
    show ¬ic.simplest + d < ic.simplest
    omega
  · refine Prod.ext hdown (decide_eq_true ?_)
    show ic.simplest - d < ic.simplest
    omega

theorem cmp_scalar_eq_lt_iff (am bm : Nat) (an bn : Bool) :
    (NodeSortKeyRef.scalar am an).cmp (.scalar bm bn) = .lt ↔
      am < bm ∨ am = bm ∧ an.toNat < bn.toNat := by
  rw [NodeSortKeyRef.cmp, NodeSortKeyRef.cmpWith, Ordering.then_eq_lt,
    Nat.compare_eq_lt, Nat.compare_eq_eq, Nat.compare_eq_lt]

theorem toIndex_lt_iff (ic : IntegerChoice) {a b : Int}
    (ha : ic.validate a = true) (hb : ic.validate b = true) :
    ic.toIndex a < ic.toIndex b ↔
      (NodeSortKeyRef.scalar (ic.sortKey a).1 (ic.sortKey a).2).cmp
        (.scalar (ic.sortKey b).1 (ic.sortKey b).2) = .lt := by
  rw [cmp_scalar_eq_lt_iff]
  have hzero := (ic.sortKey_side 0).1
  rw [Int.natCast_zero, Int.add_zero] at hzero
  rcases ic.eq_simplest_or_side ha with rfl | ⟨d, hpos, hd, rfl⟩ |
      ⟨d, hpos, hd, rfl⟩ <;>
    rcases ic.eq_simplest_or_side hb with rfl | ⟨e, hpos', he, rfl⟩ |
      ⟨e, hpos', he, rfl⟩
  · simp
  · rw [toIndex_above ic hpos', hzero, (ic.sortKey_side e).1]
    simp [hpos']
  · rw [toIndex_below ic hpos', hzero, (ic.sortKey_side e).2 hpos']
    simp only [toIndex_simplest]
    split <;> omega
  · rw [toIndex_above ic hpos, hzero, (ic.sortKey_side d).1]
    simp
  · rw [toIndex_above ic hpos, toIndex_above ic hpos',
      (ic.sortKey_side d).1, (ic.sortKey_side e).1]
    simp only [Bool.toNat_false]
    omega
  · rw [toIndex_above ic hpos, toIndex_below ic hpos',
      (ic.sortKey_side d).1, (ic.sortKey_side e).2 hpos']
    simp only [Bool.toNat_false, Bool.toNat_true]
    split <;> omega
  · rw [toIndex_below ic hpos, hzero, (ic.sortKey_side d).2 hpos]
    simp only [toIndex_simplest, Bool.toNat_false, Bool.toNat_true]
    omega
  · rw [toIndex_below ic hpos, toIndex_above ic hpos',
      (ic.sortKey_side d).2 hpos, (ic.sortKey_side e).1]
    simp only [Bool.toNat_false, Bool.toNat_true]
    split <;> omega
  · rw [toIndex_below ic hpos, toIndex_below ic hpos',
      (ic.sortKey_side d).2 hpos, (ic.sortKey_side e).2 hpos']
    simp only [Bool.toNat_true]
    split <;> split <;> omega

/-- The integer index is dense. -/
theorem isDenseIndex (ic : IntegerChoice) :
    IsDenseIndex (fun _ => True) True ic.validate ic.maxIndex ic.toIndex
      (fun i => .ok (ic.fromIndex i))
      (fun v => .scalar (ic.sortKey v).1 (ic.sortKey v).2) where
  fromIndex_toIndex _ hv _ := congrArg Except.ok (ic.fromIndex_toIndex hv)
  toIndex_fromIndex _ i hi := by
    obtain ⟨v, hfrom, hvalid, hto⟩ := ic.toIndex_fromIndex hi
    exact ⟨v, congrArg Except.ok hfrom, hvalid, hto⟩
  fromIndex_none _ _ hi := congrArg Except.ok (ic.fromIndex_none hi)
  toIndex_lt_iff _ _ ha hb _ _ := ic.toIndex_lt_iff ha hb

end IntegerChoice

section Sequences

variable {Value : Type} {base : Nat} {Admitted : Value → Prop}
  {digit : Value → Nat} {decode : Nat → Except InternalError Value}

/-- Digits below a base and the admitted elements of a sequence, one for
one. -/
structure IsDigitCodec (base : Nat) (Admitted : Value → Prop)
    (digit : Value → Nat) (decode : Nat → Except InternalError Value) :
    Prop where
  digit_lt : ∀ v, Admitted v → digit v < base
  decode_digit : ∀ v, Admitted v → decode (digit v) = .ok v
  digit_surjective : ∀ d < base, ∃ v, Admitted v ∧ digit v = d

theorem mapM_decode (hcodec : IsDigitCodec base Admitted digit decode)
    {values : List Value} (hvalues : ∀ v ∈ values, Admitted v) :
    (values.map digit).mapM decode = .ok values := by
  induction values with
  | nil => rfl
  | cons head tail ih =>
      have hhead := hcodec.decode_digit head (hvalues head List.mem_cons_self)
      have htail := ih fun v hv => hvalues v (List.mem_cons_of_mem head hv)
      rw [List.map_cons, List.mapM_cons, hhead, htail]
      rfl

theorem exists_map_digit (hcodec : IsDigitCodec base Admitted digit decode)
    {digits : List Nat} (hdigits : ∀ d ∈ digits, d < base) :
    ∃ values : List Value,
      (∀ v ∈ values, Admitted v) ∧ values.map digit = digits := by
  induction digits with
  | nil => exact ⟨[], by simp, rfl⟩
  | cons d rest ih =>
      obtain ⟨head, hhead, hdigit⟩ :=
        hcodec.digit_surjective d (hdigits d List.mem_cons_self)
      obtain ⟨tail, htail, hmap⟩ :=
        ih fun e he => hdigits e (List.mem_cons_of_mem d he)
      refine ⟨head :: tail, ?_, by rw [List.map_cons, hdigit, hmap]⟩
      intro v hv
      rcases List.mem_cons.mp hv with rfl | hv
      · exact hhead
      · exact htail v hv

/-- The source's `u32` exponents are exact below `2 ^ 32`. -/
theorem foldl_pow_eq_bucketSum (base : Nat) {lengths : List Nat}
    (hlengths : ∀ n ∈ lengths, n < 2 ^ 32) :
    lengths.foldl (fun offset length => offset + base ^ (length % 2 ^ 32)) 0 =
      Numeration.bucketSum base lengths := by
  have hexact : ∀ start, lengths.foldl
        (fun offset length => offset + base ^ (length % 2 ^ 32)) start =
      lengths.foldl (fun offset length => offset + base ^ length) start := by
    induction lengths with
    | nil => exact fun _ => rfl
    | cons head tail ih =>
        intro start
        rw [List.foldl_cons, List.foldl_cons,
          ih fun n hn => hlengths n (List.mem_cons_of_mem head hn),
          Nat.mod_eq_of_lt (hlengths head List.mem_cons_self)]
  exact hexact 0

theorem lt_of_mem_lengths {minSize maxSize n : Nat}
    (hsize : maxSize < 2 ^ 32)
    (hn : n ∈ List.range' minSize (maxSize + 1 - minSize)) : n < 2 ^ 32 := by
  obtain ⟨hlow, hhigh⟩ := List.mem_range'_1.mp hn
  omega

theorem sequenceIndex_eq_shortlexRank {minSize : Nat} {digits : List Nat}
    (hlength : digits.length ≤ 2 ^ 32) :
    sequenceIndex base minSize digits =
      Numeration.shortlexRank base minSize digits := by
  simp only [sequenceIndex, Numeration.shortlexRank, Numeration.positional]
  rw [foldl_pow_eq_bucketSum]
  intro n hn
  obtain ⟨hlow, hhigh⟩ := List.mem_range'_1.mp hn
  omega

/-- The length walk of the source is the bucket walk of the numbering, each
digit decoded. -/
theorem sequenceFromIndex_eq (hcodec : IsDigitCodec base Admitted digit decode)
    {lengths : List Nat} (hlengths : ∀ n ∈ lengths, n < 2 ^ 32)
    (index : Nat) :
    (Numeration.unrankLoop base lengths index = none →
      sequenceFromIndex base decode lengths index = .ok none) ∧
    ∀ values : List Value, (∀ v ∈ values, Admitted v) →
      Numeration.unrankLoop base lengths index = some (values.map digit) →
      sequenceFromIndex base decode lengths index = .ok (some values) := by
  induction lengths generalizing index with
  | nil => exact ⟨fun _ => rfl, by simp [Numeration.unrankLoop]⟩
  | cons length rest ih =>
      have hlength := Nat.mod_eq_of_lt (hlengths length List.mem_cons_self)
      have hrest := ih fun n hn => hlengths n (List.mem_cons_of_mem length hn)
      rw [Numeration.unrankLoop, sequenceFromIndex, hlength]
      split
      case isTrue hbelow =>
        refine ⟨by simp, fun values hvalues hunrank => ?_⟩
        have hlow : Numeration.lowDigits base length index =
            (values.reverse).map digit := by
          rw [List.map_reverse, ← Option.some.inj hunrank,
            List.reverse_reverse]
        have hreversed : ∀ v ∈ values.reverse, Admitted v :=
          fun v hv => hvalues v (List.mem_reverse.mp hv)
        have hdecode := mapM_decode hcodec hreversed
        rw [hlow, hdecode]
        exact congrArg (Except.ok ∘ some) (List.reverse_reverse values)
      case isFalse habove => exact hrest (index - base ^ length)

/-- What a length walk finds it still finds when more lengths follow. -/
theorem sequenceFromIndex_append {front : List Nat} (back : List Nat)
    {index : Nat} {values : List Value}
    (hvalues : sequenceFromIndex base decode front index = .ok (some values)) :
    sequenceFromIndex base decode (front ++ back) index =
      .ok (some values) := by
  induction front generalizing index with
  | nil => simp [sequenceFromIndex] at hvalues
  | cons length rest ih =>
      rw [sequenceFromIndex] at hvalues
      rw [List.cons_append, sequenceFromIndex]
      split at hvalues
      case isTrue hbelow => rwa [if_pos hbelow]
      case isFalse habove =>
        rw [if_neg habove]
        exact ih hvalues

/-- How many sequences there are. -/
def sequenceCount (base minSize maxSize : Nat) : Nat :=
  Numeration.bucketSum base (List.range' minSize (maxSize + 1 - minSize))

/-- A shortlex index over a digit codec is dense. -/
theorem isDenseIndex_of_isDigitCodec
    (hcodec : IsDigitCodec base Admitted digit decode)
    {minSize maxSize maxIndex : Nat} {validate : List Value → Bool}
    {sortKeyRef : List Value → NodeSortKeyRef}
    (hvalidate : ∀ v, validate v = true ↔
      minSize ≤ v.length ∧ v.length ≤ maxSize ∧ ∀ x ∈ v, Admitted x)
    (hsort : ∀ a b, (sortKeyRef a).cmp (sortKeyRef b) =
      shortlexCmp compare (a.map digit) (b.map digit))
    (hmax : maxSize < 2 ^ 32 →
      maxIndex + 1 = sequenceCount base minSize maxSize) :
    IsDenseIndex (fun v => v.length < 2 ^ 32) (maxSize < 2 ^ 32) validate
      maxIndex (fun v => sequenceIndex base minSize (v.map digit))
      (sequenceFromIndex base decode
        (List.range' minSize (maxSize + 1 - minSize)))
      sortKeyRef := by
  have hadmissible : ∀ v, validate v = true →
      Numeration.Admissible base minSize maxSize (v.map digit) := by
    intro v hv
    obtain ⟨hmin, hle, hall⟩ := (hvalidate v).mp hv
    refine ⟨by simpa using hmin, by simpa using hle, ?_⟩
    intro d hd
    obtain ⟨x, hx, rfl⟩ := List.mem_map.mp hd
    exact hcodec.digit_lt x (hall x hx)
  have hrank : ∀ v : List Value, v.length < 2 ^ 32 →
      sequenceIndex base minSize (v.map digit) =
        Numeration.shortlexRank base minSize (v.map digit) := by
    intro v hshort
    exact sequenceIndex_eq_shortlexRank (by rw [List.length_map]; omega)
  constructor
  · intro v hv hshort
    obtain ⟨hmin, hle, hall⟩ := (hvalidate v).mp hv
    have hfound := (sequenceFromIndex_eq hcodec
      (fun _ => lt_of_mem_lengths hshort) _).2 v hall
      (Numeration.shortlexUnrank_shortlexRank
        ⟨by simpa using hmin, by simp, (hadmissible v hv).digit_lt⟩)
    have hsplit : List.range' minSize (maxSize + 1 - minSize) =
        List.range' minSize (v.length + 1 - minSize) ++
          List.range' (v.length + 1) (maxSize - v.length) := by
      have happend := List.range'_append_1 (s := minSize)
        (m := v.length + 1 - minSize) (n := maxSize - v.length)
      rw [show minSize + (v.length + 1 - minSize) = v.length + 1 by omega,
        show v.length + 1 - minSize + (maxSize - v.length) =
          maxSize + 1 - minSize by omega] at happend
      exact happend.symm
    rw [hrank v hshort, hsplit]
    exact sequenceFromIndex_append _ hfound
  · intro hbounded i hi
    have hsome : Numeration.shortlexUnrank base minSize maxSize i ≠ none := by
      have hcount := hmax hbounded
      rw [Ne, Numeration.shortlexUnrank_eq_none_iff]
      rw [sequenceCount] at hcount
      omega
    obtain ⟨digits, hdigits⟩ := Option.ne_none_iff_exists'.mp hsome
    obtain ⟨hfound, hindex⟩ := Numeration.shortlexUnrank_eq_some hdigits
    obtain ⟨v, hall, rfl⟩ := exists_map_digit hcodec hfound.digit_lt
    have hmin := hfound.minSize_le
    have hle := hfound.le_maxSize
    rw [List.length_map] at hmin hle
    have hv := (hvalidate v).mpr ⟨hmin, hle, hall⟩
    exact ⟨v, (sequenceFromIndex_eq hcodec
      (fun _ => lt_of_mem_lengths hbounded) i).2 v hall hdigits, hv,
      by rw [hrank v (by omega), hindex]⟩
  · intro hbounded i hi
    apply (sequenceFromIndex_eq hcodec
      (fun _ => lt_of_mem_lengths hbounded) i).1
    apply (Numeration.shortlexUnrank_eq_none_iff base minSize maxSize i).mpr
    have hcount := hmax hbounded
    rw [sequenceCount] at hcount
    omega
  · intro a b ha hb hshort hshort'
    have hlt : (fun m n : Nat => compare m n = .lt) = (· < ·) := by
      funext m n
      exact propext Nat.compare_eq_lt
    rw [hrank a hshort, hrank b hshort', hsort, shortlexCmp_eq_lt_iff, hlt]
    exact Numeration.shortlexRank_lt_iff_shortlex (hadmissible a ha)
      (hadmissible b hb)

end Sequences

namespace BytesChoice

theorem isDigitCodec :
    IsDigitCodec 256 (fun _ => True) UInt8.toNat byteOfDigit where
  digit_lt v _ := v.toNat_lt
  decode_digit v _ := by
    rw [byteOfDigit, if_pos v.toNat_lt, UInt8.ofNat_toNat]
  digit_surjective d hd :=
    ⟨UInt8.ofNat d, True.intro, UInt8.toNat_ofNat_of_lt' hd⟩

theorem positional_replicate (count : Nat) :
    Numeration.positional 256 (List.replicate count 255) + 1 = 256 ^ count := by
  induction count with
  | zero => rfl
  | succ n ih =>
      rw [List.replicate_succ, Numeration.positional_cons,
        List.length_replicate, pow_succ]
      omega

theorem maxIndex_succ (bc : BytesChoice) (hsize : bc.maxSize < 2 ^ 32) :
    bc.maxIndex + 1 = sequenceCount 256 bc.minSize bc.maxSize := by
  have hordered := bc.ordered
  have hdigits : (List.replicate bc.maxSize (0xff : UInt8)).map UInt8.toNat =
      List.replicate bc.maxSize 255 := by
    rw [List.map_replicate]
    rfl
  have hposition := positional_replicate bc.maxSize
  have hbucket := Numeration.bucketSum_range'_succ 256 bc.minSize
    (bc.maxSize - bc.minSize)
  rw [maxIndex, toIndex, hdigits,
    sequenceIndex_eq_shortlexRank (by rw [List.length_replicate]; omega),
    Numeration.shortlexRank, List.length_replicate, sequenceCount,
    show bc.maxSize + 1 - bc.minSize = bc.maxSize - bc.minSize + 1 by omega,
    hbucket, Nat.add_sub_cancel' hordered]
  omega

theorem isDenseIndex (bc : BytesChoice) :
    IsDenseIndex (fun v => v.length < 2 ^ 32) (bc.maxSize < 2 ^ 32)
      bc.validate bc.maxIndex bc.toIndex bc.fromIndex
      (fun v => .seq (.bytes v)) :=
  isDenseIndex_of_isDigitCodec isDigitCodec (by simp [validate])
    (fun _ _ => rfl) bc.maxIndex_succ

end BytesChoice

namespace StringChoice

theorem codepointKey_eq (sc : StringChoice) {cp : UInt32}
    (hmem : sc.intervals.contains cp.toNat = true) :
    sc.codepointKey cp =
      sc.intervals.indexFromCodepointInShrinkOrder cp.toNat := by
  have hlt := (sc.intervals.charInShrinkOrder_indexFromCodepoint hmem).1
  have hlen := sc.intervals.len_le
  exact Nat.mod_eq_of_lt (by omega)

theorem toNat_keyToCodepoint (sc : StringChoice) {key : Nat}
    (hkey : key < sc.intervals.len) :
    (UInt32.ofNat (sc.intervals.charInShrinkOrder key)).toNat =
      sc.intervals.charInShrinkOrder key := by
  have hmem := (sc.intervals.indexFromCodepoint_charInShrinkOrder hkey).1
  have hle := sc.intervals.le_of_contains hmem
  exact UInt32.toNat_ofNat_of_lt' (show _ < 2 ^ 32 by omega)

theorem codepointOfDigit_of_lt (sc : StringChoice) {d : Nat}
    (hd : d < sc.alphaSize) :
    sc.codepointOfDigit d =
      .ok (UInt32.ofNat (sc.intervals.charInShrinkOrder d)) := by
  have hlen := sc.intervals.len_le
  rw [alphaSize] at hd
  rw [codepointOfDigit, if_pos (by omega), codepointAtRank,
    Nat.mod_eq_of_lt (by omega), keyToCodepoint, if_neg (by omega)]

theorem isDigitCodec (sc : StringChoice) :
    IsDigitCodec sc.alphaSize
      (fun cp => sc.intervals.contains cp.toNat = true) sc.codepointKey
      sc.codepointOfDigit where
  digit_lt cp hmem := by
    rw [sc.codepointKey_eq hmem]
    exact (sc.intervals.charInShrinkOrder_indexFromCodepoint hmem).1
  decode_digit cp hmem := by
    obtain ⟨hlt, hchar⟩ :=
      sc.intervals.charInShrinkOrder_indexFromCodepoint hmem
    rw [sc.codepointKey_eq hmem, sc.codepointOfDigit_of_lt hlt, hchar,
      UInt32.ofNat_toNat]
  digit_surjective d hd := by
    obtain ⟨hmem, hindex⟩ :=
      sc.intervals.indexFromCodepoint_charInShrinkOrder hd
    have htoNat := sc.toNat_keyToCodepoint hd
    refine ⟨UInt32.ofNat (sc.intervals.charInShrinkOrder d), ?_, ?_⟩
    · rwa [htoNat]
    · rw [sc.codepointKey_eq (by rwa [htoNat]), htoNat, hindex]

theorem validate_iff (sc : StringChoice) (v : List UInt32) :
    sc.validate v = true ↔ sc.minSize ≤ v.length ∧ v.length ≤ sc.maxSize ∧
      ∀ cp ∈ v, sc.intervals.contains cp.toNat = true := by
  rw [validate]
  split
  case isTrue houtside =>
    simp only [Bool.not_eq_true', Bool.and_eq_false_iff,
      decide_eq_false_iff_not] at houtside
    simp only [Bool.false_eq_true, false_iff]
    omega
  case isFalse hinside =>
    simp only [Bool.not_eq_true', Bool.not_eq_false, Bool.and_eq_true,
      decide_eq_true_eq] at hinside
    simp only [List.all_eq_true]
    exact ⟨fun h => ⟨hinside.1, hinside.2, h⟩, fun h => h.2.2⟩

/-- The count of admitted strings is positive: the empty alphabet admits the
empty string. -/
theorem sequenceCount_pos (sc : StringChoice) :
    0 < sequenceCount sc.alphaSize sc.minSize sc.maxSize := by
  have hordered := sc.ordered
  rw [sequenceCount,
    show sc.maxSize + 1 - sc.minSize = sc.maxSize - sc.minSize + 1 by omega,
    List.range'_succ, Numeration.bucketSum_cons]
  rcases sc.drawable with hnonempty | hzero
  · have hpos : 0 < sc.alphaSize := by
      rw [IntervalSet.isEmpty, beq_eq_false_iff_ne] at hnonempty
      exact Nat.pos_of_ne_zero hnonempty
    exact Nat.add_pos_left (Nat.pow_pos hpos) _
  · rw [show sc.minSize = 0 by omega, pow_zero]
    omega

theorem maxIndex_succ (sc : StringChoice) (hsize : sc.maxSize < 2 ^ 32) :
    sc.maxIndex + 1 = sequenceCount sc.alphaSize sc.minSize sc.maxSize := by
  have hpos := sc.sequenceCount_pos
  rw [maxIndex, foldl_pow_eq_bucketSum _ fun _ => lt_of_mem_lengths hsize]
  exact Nat.sub_add_cancel hpos

theorem isDenseIndex (sc : StringChoice) :
    IsDenseIndex (fun v => v.length < 2 ^ 32) (sc.maxSize < 2 ^ 32)
      sc.validate sc.maxIndex sc.toIndex sc.fromIndex
      (fun v => .seq (.string sc v)) := by
  have hdraw : sc.alphaSize ≠ 0 ∨ sc.maxSize = 0 := by
    rcases sc.drawable with hnonempty | hzero
    · rw [IntervalSet.isEmpty, beq_eq_false_iff_ne] at hnonempty
      exact Or.inl hnonempty
    · exact Or.inr hzero
  have hfrom : sc.fromIndex = sequenceFromIndex sc.alphaSize
      sc.codepointOfDigit
      (List.range' sc.minSize (sc.maxSize + 1 - sc.minSize)) := by
    funext index
    rw [fromIndex, if_pos hdraw]
  rw [hfrom]
  exact isDenseIndex_of_isDigitCodec sc.isDigitCodec sc.validate_iff
    (fun _ _ => rfl) sc.maxIndex_succ

end StringChoice

/-- The dense indexes of integers, byte strings and codepoint strings: the
value of a node is numbered without gaps in the order of the nodes' sort
keys.  Sequence lengths stay below `2 ^ 32`, where the source's exponents
end. -/
theorem choiceIndex_dense :
    (∀ (ic : IntegerChoice) (forced : Bool),
      IsDenseIndex (fun _ => True) True ic.validate ic.maxIndex ic.toIndex
        (fun i => .ok (ic.fromIndex i))
        fun v => (ChoiceNode.mk (.integer ic v) forced).sortKeyRef) ∧
    (∀ (bc : BytesChoice) (forced : Bool),
      IsDenseIndex (fun v => v.length < 2 ^ 32) (bc.maxSize < 2 ^ 32)
        bc.validate bc.maxIndex bc.toIndex bc.fromIndex
        fun v => (ChoiceNode.mk (.bytes bc v) forced).sortKeyRef) ∧
    (∀ (sc : StringChoice) (forced : Bool),
      IsDenseIndex (fun v => v.length < 2 ^ 32) (sc.maxSize < 2 ^ 32)
        sc.validate sc.maxIndex sc.toIndex sc.fromIndex
        fun v => (ChoiceNode.mk (.string sc v) forced).sortKeyRef) := by
  refine ⟨?_, ?_, ?_⟩
  · intro ic forced
    exact ic.isDenseIndex
  · intro bc forced
    exact bc.isDenseIndex
  · intro sc forced
    exact sc.isDenseIndex

end Hegel
