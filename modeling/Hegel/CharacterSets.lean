/-
Where the characters of an alphabet come from: ranges of codepoints, lists of
single characters and general categories, each as an interval set without
surrogates.
-/
import Hegel.IntervalAlgebra

namespace Hegel

/-- The general categories. -/
inductive Category where
  | lu | ll | lt | lm | lo | mn | mc | me | nd | nl | no
  | pc | pd | ps | pe | pi | pf | po | sm | sc | sk | so
  | zs | zl | zp | cc | cf | cs | co | cn
deriving DecidableEq

namespace Category

def asStr : Category → String
  | lu => "Lu" | ll => "Ll" | lt => "Lt" | lm => "Lm" | lo => "Lo"
  | mn => "Mn" | mc => "Mc" | me => "Me" | nd => "Nd" | nl => "Nl"
  | no => "No" | pc => "Pc" | pd => "Pd" | ps => "Ps" | pe => "Pe"
  | pi => "Pi" | pf => "Pf" | po => "Po" | sm => "Sm" | sc => "Sc"
  | sk => "Sk" | so => "So" | zs => "Zs" | zl => "Zl" | zp => "Zp"
  | cc => "Cc" | cf => "Cf" | cs => "Cs" | co => "Co" | cn => "Cn"

end Category

def isSurrogate (cp : Nat) : Bool :=
  decide (0xD800 ≤ cp ∧ cp ≤ 0xDFFF)

/-- The table of general categories, in which only surrogates are `Cs`. -/
structure UnicodeData where
  generalCategory : Nat → Category
  surrogates : ∀ cp, generalCategory cp = .cs → isSurrogate cp = true

def majorClasses : List String :=
  ["L", "M", "N", "P", "S", "Z", "C"]

/-- A code matches itself and its major class. -/
def groupMatches (cat group : String) : Bool :=
  match group.utf8ByteSize with
  | 2 => cat == group
  | 1 => group.toList.isPrefixOf cat.toList && majorClasses.contains group
  | _ => false

def UnicodeData.isInGroup (data : UnicodeData) (cp : Nat) (group : String) :
    Bool :=
  groupMatches (data.generalCategory cp).asStr group

namespace IntervalSet

/-- A range without the surrogates in it. -/
def rangesWithoutSurrogates (min max : Nat) : List (Nat × Nat) :=
  if min > max then []
  else if max < 0xD800 ∨ min > 0xDFFF then [(min, max)]
  else
    (if min < 0xD800 then [(min, 0xD7FF)] else []) ++
      if max > 0xDFFF then [(0xE000, max)] else []

/-- Add a codepoint to ranges that have the last one first. -/
def addCodepoint (ranges : List (Nat × Nat)) (cp : Nat) : List (Nat × Nat) :=
  match ranges with
  | last :: earlier =>
      if cp = last.2 + 1 then (last.1, cp) :: earlier
      else (cp, cp) :: last :: earlier
  | [] => [(cp, cp)]

/-- Characters in any order, collapsed into ranges. -/
def characterRanges (chars : List Char) : List (Nat × Nat) :=
  ((((chars.map Char.toNat).insertionSort (· ≤ ·)).dedup).foldl
    addCodepoint []).reverse

/-- Ranges found so far, and where the current one starts. -/
structure Scan where
  ranges : List (Nat × Nat)
  runStart : Option Nat

/-- End the current range before a codepoint. -/
def Scan.close (scan : Scan) (cp : Nat) : Scan :=
  match scan.runStart with
  | some start => ⟨scan.ranges ++ [(start, cp - 1)], none⟩
  | none => scan

def Scan.step (inGroup : Nat → Bool) (scan : Scan) (cp : Nat) : Scan :=
  if isSurrogate cp then scan.close cp
  else if inGroup cp then
    if scan.runStart.isNone then { scan with runStart := some cp } else scan
  else scan.close cp

/-- The scan of the codepoints below a bound. -/
def scanned (inGroup : Nat → Bool) (count : Nat) : Scan :=
  (List.range count).foldl (Scan.step inGroup) ⟨[], none⟩

/-- The ranges of a scan that has reached the last codepoint. -/
def Scan.finish (scan : Scan) (last : Nat) : List (Nat × Nat) :=
  match scan.runStart with
  | some start => scan.ranges ++ [(start, last)]
  | none => scan.ranges

def categoryRanges (inGroup : Nat → Bool) : List (Nat × Nat) :=
  (scanned inGroup 0x110000).finish 0x10FFFF

section Ranges

open Ranges

theorem isSurrogate_iff (cp : Nat) :
    isSurrogate cp = true ↔ 0xD800 ≤ cp ∧ cp ≤ 0xDFFF := by
  rw [isSurrogate, decide_eq_true_eq]

theorem rangesWithoutSurrogates_spec (min max : Nat) :
    Canonical (rangesWithoutSurrogates min max) ∧
      ∀ n, Covers (rangesWithoutSurrogates min max) n ↔
        (min ≤ n ∧ n ≤ max) ∧ isSurrogate n = false := by
  have hsurrogate : ∀ n, isSurrogate n = false ↔
      ¬(0xD800 ≤ n ∧ n ≤ 0xDFFF) := by
    intro n
    rw [← isSurrogate_iff, Bool.not_eq_true]
  simp only [hsurrogate]
  rw [rangesWithoutSurrogates]
  by_cases hempty : min > max
  · rw [if_pos hempty]
    refine ⟨canonical_nil, fun n => ?_⟩
    rw [covers_nil, false_iff]
    omega
  rw [if_neg hempty]
  by_cases houtside : max < 0xD800 ∨ min > 0xDFFF
  · rw [if_pos houtside]
    refine ⟨canonical_cons.mpr ⟨Nat.le_of_not_lt hempty, nofun,
      canonical_nil⟩, fun n => ?_⟩
    rw [covers_cons, covers_nil, or_false]
    omega
  rw [if_neg houtside]
  by_cases hlow : min < 0xD800
  · by_cases hhigh : max > 0xDFFF
    · rw [if_pos hlow, if_pos hhigh]
      refine ⟨canonical_cons.mpr ⟨by show min ≤ 0xD7FF; omega, ?_,
        canonical_cons.mpr ⟨by show 0xE000 ≤ max; omega, nofun,
          canonical_nil⟩⟩, fun n => ?_⟩
      · intro later hmem
        rw [List.mem_singleton.mp hmem]
        show 0xD7FF < 0xE000
        omega
      · rw [List.singleton_append, covers_cons, covers_cons, covers_nil, or_false]
        omega
    · rw [if_pos hlow, if_neg hhigh]
      refine ⟨canonical_cons.mpr ⟨by show min ≤ 0xD7FF; omega, nofun,
        canonical_nil⟩, fun n => ?_⟩
      rw [List.append_nil, covers_cons, covers_nil, or_false]
      omega
  · by_cases hhigh : max > 0xDFFF
    · rw [if_neg hlow, if_pos hhigh]
      refine ⟨canonical_cons.mpr ⟨by show 0xE000 ≤ max; omega, nofun,
        canonical_nil⟩, fun n => ?_⟩
      rw [List.nil_append, covers_cons, covers_nil, or_false]
      omega
    · rw [if_neg hlow, if_neg hhigh]
      refine ⟨canonical_nil, fun n => ?_⟩
      rw [List.nil_append, covers_nil, false_iff]
      omega

/-- Adding a codepoint above all ranges is merging it as a range of its own. -/
theorem foldl_addCodepoint {result : List (Nat × Nat)} {cps : List Nat}
    (hsorted : cps.Pairwise (· < ·))
    (habove : ∀ last ∈ result.head?, ∀ cp ∈ cps, last.2 < cp) :
    cps.foldl addCodepoint result =
      (cps.map fun cp => (cp, cp)).foldl mergeStep result := by
  induction cps generalizing result with
  | nil => rfl
  | cons cp cps ih =>
      obtain ⟨hnext, hcps⟩ := List.pairwise_cons.mp hsorted
      have hstep : addCodepoint result cp = mergeStep result (cp, cp) := by
        cases result with
        | nil => rfl
        | cons last earlier =>
            have hlast := habove last rfl cp List.mem_cons_self
            rw [addCodepoint, mergeStep]
            by_cases htouch : cp = last.2 + 1
            · rw [if_pos htouch, if_pos (show cp ≤ last.2 + 1 by omega),
                show max last.2 cp = cp by omega]
            · rw [if_neg htouch, if_neg (show ¬cp ≤ last.2 + 1 by omega)]
      have hends : ∀ last ∈ (addCodepoint result cp).head?, last.2 = cp := by
        cases result with
        | nil =>
            intro last hlast
            cases hlast
            rfl
        | cons first earlier =>
            intro last hlast
            rw [addCodepoint] at hlast
            split at hlast
            · cases hlast
              rfl
            · cases hlast
              rfl
      rw [List.foldl_cons, List.map_cons, List.foldl_cons, ← hstep]
      apply ih hcps
      intro last hlast later hmem
      rw [hends last hlast]
      exact hnext later hmem

theorem characterRanges_spec (chars : List Char) :
    Canonical (characterRanges chars) ∧
      ∀ n, Covers (characterRanges chars) n ↔ n ∈ chars.map Char.toNat := by
  rw [characterRanges]
  generalize hsorted :
    ((chars.map Char.toNat).insertionSort (· ≤ ·)).dedup = cps
  have hmem : ∀ n, n ∈ cps ↔ n ∈ chars.map Char.toNat := by
    intro n
    rw [← hsorted, List.mem_dedup, List.mem_insertionSort]
  have hordered : cps.Pairwise (· < ·) := by
    rw [← hsorted]
    have hle := (List.pairwise_insertionSort (· ≤ ·)
      (chars.map Char.toNat)).sublist (List.dedup_sublist _)
    exact (hle.and (List.nodup_dedup _)).imp fun h =>
      lt_of_le_of_ne h.1 h.2
  have hmerging : Merging [] (cps.map fun cp => (cp, cp)) := {
    ordered := List.Pairwise.nil
    inhabited := nofun
    starts := List.pairwise_map.mpr (hordered.imp le_of_lt)
    inhabited_rest := by
      intro range hrange
      obtain ⟨cp, -, rfl⟩ := List.mem_map.mp hrange
      exact le_refl _
    behind := nofun }
  rw [foldl_addCodepoint hordered (fun last hlast => by cases hlast)]
  obtain ⟨hcanonical, hcovers⟩ := foldl_mergeStep hmerging
  refine ⟨hcanonical, fun n => ?_⟩
  rw [hcovers, ← hmem, covers_nil, false_or]
  constructor
  · rintro ⟨range, hrange, hlow, hhigh⟩
    obtain ⟨cp, hcp, rfl⟩ := List.mem_map.mp hrange
    rw [le_antisymm hhigh hlow]
    exact hcp
  · intro hn
    exact ⟨(n, n), List.mem_map.mpr ⟨n, hn, rfl⟩, le_refl _, le_refl _⟩

/-- What the scan knows about the codepoints below a bound. -/
structure Scan.Invariant (wanted : Nat → Prop) (count : Nat) (scan : Scan) :
    Prop where
  canonical : Canonical scan.ranges
  below : ∀ range ∈ scan.ranges, range.2 < count
  start : ∀ start, scan.runStart = some start →
    start < count ∧ ∀ range ∈ scan.ranges, range.2 < start
  covers : ∀ n < count, wanted n ↔ Covers scan.ranges n ∨
    ∃ start, scan.runStart = some start ∧ start ≤ n

theorem canonical_concat {ranges : List (Nat × Nat)} {range : Nat × Nat}
    (h : Canonical ranges) (hrange : range.1 ≤ range.2)
    (hbelow : ∀ earlier ∈ ranges, earlier.2 < range.1) :
    Canonical (ranges ++ [range]) where
  ordered := by
    refine List.pairwise_append.mpr ⟨h.ordered, List.pairwise_singleton _ _, ?_⟩
    intro earlier hmem last hlast
    rw [List.mem_singleton.mp hlast]
    exact hbelow earlier hmem
  inhabited := by
    intro other hmem
    rcases List.mem_append.mp hmem with hmem | hmem
    · exact h.inhabited other hmem
    · rw [List.mem_singleton.mp hmem]
      exact hrange

/-- A range ends before a codepoint that is not wanted. -/
theorem Scan.Invariant.close {wanted : Nat → Prop} {count : Nat} {scan : Scan}
    (h : Scan.Invariant wanted count scan) (hout : ¬wanted count) :
    Scan.Invariant wanted (count + 1) (scan.close count) := by
  obtain ⟨ranges, runStart⟩ := scan
  cases runStart with
  | none =>
      exact {
        canonical := h.canonical
        below := fun range hmem => Nat.lt_succ_of_lt (h.below range hmem)
        start := nofun
        covers := fun n hn => by
          rcases Nat.lt_succ_iff_lt_or_eq.mp hn with hlt | rfl
          · exact h.covers n hlt
          · have hcovers : ¬Covers ranges n := by
              rintro ⟨range, hmem, -, hhigh⟩
              have := h.below range hmem
              omega
            simp [hout, hcovers, Scan.close] }
  | some start =>
      obtain ⟨hstart, hbelow⟩ := h.start start rfl
      exact {
        canonical := canonical_concat h.canonical
          (by show start ≤ count - 1; omega) hbelow
        below := fun range hmem => by
          rcases List.mem_append.mp hmem with hmem | hmem
          · exact Nat.lt_succ_of_lt (h.below range hmem)
          · rw [List.mem_singleton.mp hmem]
            show count - 1 < count + 1
            omega
        start := nofun
        covers := fun n hn => by
          have hrun : Covers (ranges ++ [(start, count - 1)]) n ↔
              Covers ranges n ∨ (start ≤ n ∧ n ≤ count - 1) := by
            rw [covers_append, covers_cons, covers_nil, or_false]
          show wanted n ↔ Covers (ranges ++ [(start, count - 1)]) n ∨
            ∃ start', none = some start' ∧ start' ≤ n
          rw [hrun]
          rcases Nat.lt_succ_iff_lt_or_eq.mp hn with hlt | rfl
          · rw [h.covers n hlt]
            have hle : n ≤ count - 1 := by omega
            simp [hle]
          · have hcovers : ¬Covers ranges n := by
              rintro ⟨range, hmem, -, hhigh⟩
              have := h.below range hmem
              omega
            have hgt : ¬n ≤ n - 1 := by omega
            simp [hout, hcovers, hgt] }

/-- A codepoint that is wanted starts a range or extends it. -/
theorem Scan.Invariant.extend {wanted : Nat → Prop} {count : Nat} {scan : Scan}
    (h : Scan.Invariant wanted count scan) (hin : wanted count) :
    Scan.Invariant wanted (count + 1)
      (if scan.runStart.isNone then { scan with runStart := some count }
      else scan) := by
  obtain ⟨ranges, runStart⟩ := scan
  cases runStart with
  | none =>
      exact {
        canonical := h.canonical
        below := fun range hmem => Nat.lt_succ_of_lt (h.below range hmem)
        start := fun start hstart => by
          cases hstart
          exact ⟨Nat.lt_succ_self _, h.below⟩
        covers := fun n hn => by
          rcases Nat.lt_succ_iff_lt_or_eq.mp hn with hlt | rfl
          · have hnot : ¬count ≤ n := by omega
            rw [h.covers n hlt]
            simp [hnot]
          · simp [hin] }
  | some start =>
      obtain ⟨hstart, hbelow⟩ := h.start start rfl
      exact {
        canonical := h.canonical
        below := fun range hmem => Nat.lt_succ_of_lt (h.below range hmem)
        start := fun start' hstart' => by
          cases hstart'
          exact ⟨Nat.lt_succ_of_lt hstart, hbelow⟩
        covers := fun n hn => by
          rcases Nat.lt_succ_iff_lt_or_eq.mp hn with hlt | rfl
          · exact h.covers n hlt
          · have hle : start ≤ n := by omega
            simp [hin, hle] }

/-- Whether a scan is after a codepoint. -/
def Wanted (inGroup : Nat → Bool) (cp : Nat) : Prop :=
  isSurrogate cp = false ∧ inGroup cp = true

theorem scanned_invariant (inGroup : Nat → Bool) (count : Nat) :
    Scan.Invariant (Wanted inGroup) count (scanned inGroup count) := by
  induction count with
  | zero =>
      exact {
        canonical := canonical_nil
        below := nofun
        start := nofun
        covers := nofun }
  | succ count ih =>
      rw [scanned, List.range_succ, List.foldl_append, List.foldl_cons,
        List.foldl_nil]
      change Scan.Invariant _ _ (Scan.step inGroup (scanned inGroup count) count)
      rw [Scan.step]
      by_cases hsurrogate : isSurrogate count = true
      · rw [if_pos hsurrogate]
        exact ih.close (by simp [Wanted, hsurrogate])
      · rw [if_neg hsurrogate]
        by_cases hgroup : inGroup count = true
        · rw [if_pos hgroup]
          exact ih.extend ⟨by simpa using hsurrogate, hgroup⟩
        · rw [if_neg hgroup]
          exact ih.close (by simp [Wanted, hgroup])

/-- The last range ends with the last codepoint. -/
theorem Scan.Invariant.finish {wanted : Nat → Prop} {last : Nat} {scan : Scan}
    (h : Scan.Invariant wanted (last + 1) scan) :
    Canonical (scan.finish last) ∧
      ∀ n, Covers (scan.finish last) n ↔ n ≤ last ∧ wanted n := by
  obtain ⟨ranges, runStart⟩ := scan
  have hbound : ∀ n, Covers ranges n → n ≤ last := by
    rintro n ⟨range, hmem, -, hhigh⟩
    have := h.below range hmem
    omega
  cases runStart with
  | none =>
      refine ⟨h.canonical, fun n => ?_⟩
      constructor
      · intro hcovers
        have hle := hbound n hcovers
        exact ⟨hle, (h.covers n (Nat.lt_succ_of_le hle)).mpr (.inl hcovers)⟩
      · rintro ⟨hle, hwanted⟩
        rcases (h.covers n (Nat.lt_succ_of_le hle)).mp hwanted with
          hcovers | ⟨_, ⟨⟩, _⟩
        exact hcovers
  | some start =>
      obtain ⟨hstart, hbelow⟩ := h.start start rfl
      refine ⟨canonical_concat h.canonical (Nat.le_of_lt_succ hstart) hbelow,
        fun n => ?_⟩
      rw [Scan.finish, covers_append, covers_cons, covers_nil, or_false]
      constructor
      · rintro (hcovers | ⟨hlow, hhigh⟩)
        · have hle := hbound n hcovers
          exact ⟨hle, (h.covers n (Nat.lt_succ_of_le hle)).mpr (.inl hcovers)⟩
        · exact ⟨hhigh, (h.covers n (Nat.lt_succ_of_le hhigh)).mpr
            (.inr ⟨start, rfl, hlow⟩)⟩
      · rintro ⟨hle, hwanted⟩
        rcases (h.covers n (Nat.lt_succ_of_le hle)).mp hwanted with
          hcovers | ⟨start', hsame, hlow⟩
        · exact .inl hcovers
        · cases hsame
          exact .inr ⟨hlow, hle⟩

theorem categoryRanges_spec (inGroup : Nat → Bool) :
    Canonical (categoryRanges inGroup) ∧
      ∀ n, Covers (categoryRanges inGroup) n ↔
        n ≤ 0x10FFFF ∧ Wanted inGroup n :=
  (scanned_invariant inGroup 0x110000).finish

end Ranges

section Sources

open Ranges

theorem new_spec {ranges : List (Nat × Nat)} (h : Canonical ranges)
    (bounded : ∀ range ∈ ranges, range.2 ≤ 0x10FFFF) :
    ∃ s, new ranges h.ordered bounded = .ok s ∧
      ∀ n, s.contains n = true ↔ Covers ranges n :=
  ⟨_, new_eq h bounded, fun n => (covers_iff _ n).symm⟩

theorem withoutSurrogates_bounded {min max : Nat} (hmax : max ≤ 0x10FFFF) :
    ∀ range ∈ rangesWithoutSurrogates min max, range.2 ≤ 0x10FFFF :=
  bounded_of_covers (rangesWithoutSurrogates_spec min max).1 fun n hcovers =>
    (((rangesWithoutSurrogates_spec min max).2 n).mp hcovers).1.2.trans hmax

def rangeMinusSurrogates (min max : Nat) (hmax : max ≤ 0x10FFFF) :
    Except InternalError IntervalSet :=
  new (rangesWithoutSurrogates min max)
    (rangesWithoutSurrogates_spec min max).1.ordered
    (withoutSurrogates_bounded hmax)

theorem rangeMinusSurrogates_spec (min max : Nat) (hmax : max ≤ 0x10FFFF) :
    ∃ s, rangeMinusSurrogates min max hmax = .ok s ∧
      ∀ n, s.contains n = true ↔
        (min ≤ n ∧ n ≤ max) ∧ isSurrogate n = false := by
  obtain ⟨hcanonical, hcovers⟩ := rangesWithoutSurrogates_spec min max
  obtain ⟨s, hnew, hcontains⟩ :=
    new_spec hcanonical (withoutSurrogates_bounded hmax)
  exact ⟨s, hnew, fun n => (hcontains n).trans (hcovers n)⟩

/-- A character is a codepoint and no surrogate. -/
theorem toNat_mem_chars {chars : List Char} {n : Nat}
    (hmem : n ∈ chars.map Char.toNat) :
    n ≤ 0x10FFFF ∧ isSurrogate n = false := by
  obtain ⟨c, -, rfl⟩ := List.mem_map.mp hmem
  have hvalid : c.toNat < 0xD800 ∨ 0xDFFF < c.toNat ∧ c.toNat < 0x110000 :=
    c.valid
  refine ⟨by omega, ?_⟩
  rw [isSurrogate, decide_eq_false_iff_not]
  omega

theorem characters_bounded (chars : List Char) :
    ∀ range ∈ characterRanges chars, range.2 ≤ 0x10FFFF :=
  bounded_of_covers (characterRanges_spec chars).1 fun n hcovers =>
    (toNat_mem_chars (((characterRanges_spec chars).2 n).mp hcovers)).1

def charsToIntervals (chars : List Char) :
    Except InternalError IntervalSet :=
  new (characterRanges chars) (characterRanges_spec chars).1.ordered
    (characters_bounded chars)

theorem charsToIntervals_spec (chars : List Char) :
    ∃ s, charsToIntervals chars = .ok s ∧
      ∀ n, s.contains n = true ↔ n ∈ chars.map Char.toNat := by
  obtain ⟨hcanonical, hcovers⟩ := characterRanges_spec chars
  obtain ⟨s, hnew, hcontains⟩ :=
    new_spec hcanonical (characters_bounded chars)
  exact ⟨s, hnew, fun n => (hcontains n).trans (hcovers n)⟩

theorem category_bounded (inGroup : Nat → Bool) :
    ∀ range ∈ categoryRanges inGroup, range.2 ≤ 0x10FFFF :=
  bounded_of_covers (categoryRanges_spec inGroup).1 fun n hcovers =>
    (((categoryRanges_spec inGroup).2 n).mp hcovers).1

variable (data : UnicodeData)

def categoryIntervalset (cat : String) : Except InternalError IntervalSet :=
  new (categoryRanges fun cp => data.isInGroup cp cat)
    (categoryRanges_spec _).1.ordered (category_bounded _)

theorem categoryIntervalset_spec (cat : String) :
    ∃ s, categoryIntervalset data cat = .ok s ∧
      ∀ n, s.contains n = true ↔
        n ≤ 0x10FFFF ∧ isSurrogate n = false ∧ data.isInGroup n cat = true := by
  obtain ⟨hcanonical, hcovers⟩ :=
    categoryRanges_spec fun cp => data.isInGroup cp cat
  obtain ⟨s, hnew, hcontains⟩ := new_spec hcanonical (category_bounded _)
  exact ⟨s, hnew, fun n => (hcontains n).trans (hcovers n)⟩

/-- Add one more category to those that were united so far. -/
def addCategory (union : Option IntervalSet) (cat : String) :
    Except InternalError (Option IntervalSet) := do
  let single ← categoryIntervalset data cat
  match union with
  | some u => return some (← u.union single)
  | none => return some single

def nothing : Except InternalError IntervalSet :=
  new [] List.Pairwise.nil nofun

/-- The union of some categories over all codepoints. -/
def categoriesUnion (cats : List String) :
    Except InternalError IntervalSet := do
  match ← cats.foldlM (addCategory data) none with
  | some u => return u
  | none => nothing

theorem nothing_spec :
    ∃ s, nothing = .ok s ∧ ∀ n, s.contains n = false := by
  obtain ⟨s, hnew, hcontains⟩ := new_spec canonical_nil nofun
  refine ⟨s, hnew, fun n => ?_⟩
  have hiff := hcontains n
  rw [covers_nil, iff_false, Bool.not_eq_true] at hiff
  exact hiff

/-- Whether a codepoint is in one of some categories. -/
def InCategories (cats : List String) (n : Nat) : Prop :=
  n ≤ 0x10FFFF ∧ isSurrogate n = false ∧
    ∃ cat ∈ cats, data.isInGroup n cat = true

theorem addCategory_spec (union : Option IntervalSet) (cat : String) :
    ∃ u, addCategory data union cat = .ok (some u) ∧
      ∀ n, u.contains n = true ↔
        (∃ u' ∈ union, u'.contains n = true) ∨
          n ≤ 0x10FFFF ∧ isSurrogate n = false ∧
            data.isInGroup n cat = true := by
  obtain ⟨single, hsingle, hcontains⟩ := categoryIntervalset_spec data cat
  rw [addCategory, hsingle]
  cases union with
  | none =>
      refine ⟨single, rfl, fun n => ?_⟩
      rw [hcontains]
      simp
  | some u =>
      obtain ⟨united, hunion, hunited⟩ := u.union_spec single
      refine ⟨united, ?_, fun n => ?_⟩
      · change (do return some (← u.union single)) = _
        rw [hunion]
        rfl
      · rw [hunited, hcontains]
        simp

theorem foldlM_addCategory (cats : List String) (union : Option IntervalSet) :
    ∃ union', cats.foldlM (addCategory data) union = .ok union' ∧
      ∀ n, (∃ u ∈ union', u.contains n = true) ↔
        (∃ u ∈ union, u.contains n = true) ∨ InCategories data cats n := by
  induction cats generalizing union with
  | nil =>
      refine ⟨union, rfl, fun n => ?_⟩
      simp [InCategories]
  | cons cat cats ih =>
      obtain ⟨u, hadd, hcontains⟩ := addCategory_spec data union cat
      obtain ⟨union', hfold, hunion'⟩ := ih (some u)
      refine ⟨union', ?_, fun n => ?_⟩
      · rw [List.foldlM_cons, hadd]
        exact hfold
      · rw [hunion']
        simp only [Option.mem_def, Option.some.injEq, exists_eq_left',
          hcontains, InCategories, List.mem_cons, or_and_right, exists_or,
          exists_eq_left]
        grind

theorem categoriesUnion_spec (cats : List String) :
    ∃ s, categoriesUnion data cats = .ok s ∧
      ∀ n, s.contains n = true ↔ InCategories data cats n := by
  obtain ⟨union, hfold, hunion⟩ := foldlM_addCategory data cats none
  rw [categoriesUnion, hfold]
  cases union with
  | some u =>
      refine ⟨u, rfl, fun n => ?_⟩
      have hiff := hunion n
      simpa using hiff
  | none =>
      obtain ⟨s, hnothing, hcontains⟩ := nothing_spec
      refine ⟨s, hnothing, fun n => ?_⟩
      have hiff := hunion n
      rw [hcontains]
      simpa using hiff

end Sources

end IntervalSet

end Hegel
