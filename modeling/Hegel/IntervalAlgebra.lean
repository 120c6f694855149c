/-
The algebra of interval sets.  Two sets are walked side by side; a range of
one of them is passed over, cut or merged according to where the range of the
other one lies.  Union, difference and intersection are those of sets, and the
positions of a set number its members in order.
-/
import Hegel.Choices
import Hegel.Lib.Ranges
import Mathlib.Data.List.Sort

namespace Hegel

namespace IntervalSet

/-- Add a range to a result that has its last range first. -/
def mergeStep (result : List (Nat × Nat)) (range : Nat × Nat) :
    List (Nat × Nat) :=
  match result with
  | last :: earlier =>
      if range.1 ≤ last.2 + 1 then (last.1, max last.2 range.2) :: earlier
      else range :: last :: earlier
  | [] => [range]

/-- All ranges by their starts, merged where they overlap or touch. -/
def unionRanges (x y : List (Nat × Nat)) : List (Nat × Nat) :=
  if x.isEmpty then y
  else if y.isEmpty then x
  else
    (((x ++ y).insertionSort fun a b => a.1 ≤ b.1).foldl mergeStep []).reverse

/-- What is left of the first ranges; a range that is cut stays the current
one for as long as something is left of it. -/
def differenceRanges : List (Nat × Nat) → List (Nat × Nat) →
    List (Nat × Nat)
  | [], _ => []
  | x, [] => x
  | (xl, xr) :: x, (yl, yr) :: y =>
      if yr < xl then differenceRanges ((xl, xr) :: x) y
      else if yl > xr then (xl, xr) :: differenceRanges x ((yl, yr) :: y)
      else if yl ≤ xl then
        if yr ≥ xr then differenceRanges x ((yl, yr) :: y)
        else differenceRanges ((yr + 1, xr) :: x) y
      else if yr < xr then
        (xl, yl - 1) :: differenceRanges ((yr + 1, xr) :: x) y
      else (xl, yl - 1) :: differenceRanges x ((yl, yr) :: y)
termination_by x y => x.length + y.length

/-- The overlaps; of two ranges the one that ends first is passed over. -/
def intersectionRanges : List (Nat × Nat) → List (Nat × Nat) →
    List (Nat × Nat)
  | [], _ => []
  | _, [] => []
  | (u, v) :: x, (uu, vv) :: y =>
      if u > vv then intersectionRanges ((u, v) :: x) y
      else if uu > v then intersectionRanges x ((uu, vv) :: y)
      else if v < vv then
        (max u uu, min v vv) :: intersectionRanges x ((uu, vv) :: y)
      else (max u uu, min v vv) :: intersectionRanges ((u, v) :: x) y
termination_by x y => x.length + y.length

section Ranges

open Ranges

/-- What is cut off the front of a range lies inside of it. -/
theorem within_cut {ranges x : List (Nat × Nat)} {xl xr start : Nat}
    (hwithin : Within ranges ((start, xr) :: x)) (hstart : xl ≤ start) :
    Within ranges ((xl, xr) :: x) := by
  apply hwithin.mono
  exact within_cons_iff.mpr ⟨⟨_, List.mem_cons_self, hstart, le_refl _⟩,
    (within_refl x).cons⟩

theorem differenceRanges_within (x y : List (Nat × Nat)) :
    Within (differenceRanges x y) x := by
  fun_induction differenceRanges x y with
  | case1 y => exact within_refl _
  | case2 x hx => exact within_refl _
  | case3 xl xr x yl yr y hbefore ih => exact ih
  | case4 xl xr x yl yr y hbefore hafter ih =>
      exact within_cons_iff.mpr ⟨⟨_, List.mem_cons_self, le_refl _, le_refl _⟩,
        ih.cons⟩
  | case5 xl xr x yl yr y hbefore hafter hcut hcovered ih => exact ih.cons
  | case6 xl xr x yl yr y hbefore hafter hcut hleft ih =>
      exact within_cut ih (by omega)
  | case7 xl xr x yl yr y hbefore hafter hcut hleft ih =>
      refine within_cons_iff.mpr ⟨⟨_, List.mem_cons_self, le_refl _, ?_⟩,
        within_cut ih (by omega)⟩
      show yl - 1 ≤ xr
      omega
  | case8 xl xr x yl yr y hbefore hafter hcut hleft ih =>
      refine within_cons_iff.mpr ⟨⟨_, List.mem_cons_self, le_refl _, ?_⟩,
        ih.cons⟩
      show yl - 1 ≤ xr
      omega

theorem canonical_cut {x : List (Nat × Nat)} {xl xr start : Nat}
    (hx : Canonical ((xl, xr) :: x)) (hstart : start ≤ xr) :
    Canonical ((start, xr) :: x) := by
  obtain ⟨-, hlater, hrest⟩ := canonical_cons.mp hx
  exact canonical_cons.mpr ⟨hstart, hlater, hrest⟩

theorem differenceRanges_canonical (x y : List (Nat × Nat))
    (hx : Canonical x) (hy : Canonical y) :
    Canonical (differenceRanges x y) := by
  fun_induction differenceRanges x y with
  | case1 y => exact canonical_nil
  | case2 x hne => exact hx
  | case3 xl xr x yl yr y hbefore ih => exact ih hx hy.tail
  | case4 xl xr x yl yr y hbefore hafter ih =>
      obtain ⟨hrange, hlater, hrest⟩ := canonical_cons.mp hx
      exact canonical_cons.mpr ⟨hrange,
        (differenceRanges_within _ _).starts hlater, ih hrest hy⟩
  | case5 xl xr x yl yr y hbefore hafter hcut hcovered ih =>
      exact ih hx.tail hy
  | case6 xl xr x yl yr y hbefore hafter hcut hleft ih =>
      exact ih (canonical_cut hx (by omega)) hy.tail
  | case7 xl xr x yl yr y hbefore hafter hcut hleft ih =>
      obtain ⟨hrange, hlater, hrest⟩ := canonical_cons.mp hx
      refine canonical_cons.mpr ⟨by show xl ≤ yl - 1; omega, ?_,
        ih (canonical_cut hx (by omega)) hy.tail⟩
      apply (differenceRanges_within _ _).starts
      intro container hmem
      rcases List.mem_cons.mp hmem with rfl | hmem
      · show yl - 1 < yr + 1
        have hrange : yl ≤ yr := hy.inhabited _ List.mem_cons_self
        omega
      · have := hlater container hmem
        show yl - 1 < container.1
        simp only at this
        omega
  | case8 xl xr x yl yr y hbefore hafter hcut hleft ih =>
      obtain ⟨hrange, hlater, hrest⟩ := canonical_cons.mp hx
      refine canonical_cons.mpr ⟨by show xl ≤ yl - 1; omega, ?_, ih hrest hy⟩
      apply (differenceRanges_within _ _).starts
      intro container hmem
      have := hlater container hmem
      show yl - 1 < container.1
      simp only at this
      omega

theorem covers_differenceRanges (x y : List (Nat × Nat)) (hx : Canonical x)
    (hy : Canonical y) (n : Nat) :
    Covers (differenceRanges x y) n ↔ Covers x n ∧ ¬Covers y n := by
  fun_induction differenceRanges x y with
  | case1 y => simp
  | case2 x hne => simp
  | case3 xl xr x yl yr y hbefore ih =>
      have hout : Covers ((xl, xr) :: x) n → ¬(yl ≤ n ∧ n ≤ yr) := by
        intro hcovers
        have hlow : xl ≤ n := hx.le_of_covers hcovers
        omega
      rw [ih hx hy.tail, @covers_cons _ _ (yl, yr)]
      grind
  | case4 xl xr x yl yr y hbefore hafter ih =>
      have hout : Covers ((yl, yr) :: y) n → ¬(xl ≤ n ∧ n ≤ xr) := by
        intro hcovers
        have hlow : yl ≤ n := hy.le_of_covers hcovers
        omega
      rw [covers_cons, ih hx.tail hy, @covers_cons _ _ (xl, xr)]
      grind
  | case5 xl xr x yl yr y hbefore hafter hcut hcovered ih =>
      have hinside : xl ≤ n ∧ n ≤ xr → yl ≤ n ∧ n ≤ yr := by omega
      rw [ih hx.tail hy, covers_cons, covers_cons]
      grind
  | case6 xl xr x yl yr y hbefore hafter hcut hleft ih =>
      have hrest : Covers x n → ¬(yl ≤ n ∧ n ≤ yr) := by
        intro hcovers
        have hhigh : xr < n := hx.lt_of_covers hcovers
        omega
      have hfront : yr + 1 ≤ n ∧ n ≤ xr ↔
          (xl ≤ n ∧ n ≤ xr) ∧ ¬(yl ≤ n ∧ n ≤ yr) := by omega
      rw [ih (canonical_cut hx (by omega)) hy.tail, covers_cons, covers_cons,
        covers_cons]
      grind
  | case7 xl xr x yl yr y hbefore hafter hcut hleft ih =>
      have hyrange : yl ≤ yr := hy.inhabited _ List.mem_cons_self
      have hrest : Covers x n → ¬(yl ≤ n ∧ n ≤ yr) := by
        intro hcovers
        have hhigh : xr < n := hx.lt_of_covers hcovers
        omega
      have hhead : xl ≤ n ∧ n ≤ yl - 1 → ¬Covers y n := by
        intro hinside hcovers
        have hhigh : yr < n := hy.lt_of_covers hcovers
        omega
      have hsplit : (xl ≤ n ∧ n ≤ yl - 1) ∨ (yr + 1 ≤ n ∧ n ≤ xr) ↔
          (xl ≤ n ∧ n ≤ xr) ∧ ¬(yl ≤ n ∧ n ≤ yr) := by omega
      rw [covers_cons, ih (canonical_cut hx (by omega)) hy.tail, covers_cons,
        covers_cons, covers_cons]
      grind
  | case8 xl xr x yl yr y hbefore hafter hcut hleft ih =>
      have hyrange : yl ≤ yr := hy.inhabited _ List.mem_cons_self
      have hhead : xl ≤ n ∧ n ≤ yl - 1 → ¬Covers y n := by
        intro hinside hcovers
        have hhigh : yr < n := hy.lt_of_covers hcovers
        omega
      have hsplit : xl ≤ n ∧ n ≤ yl - 1 ↔
          (xl ≤ n ∧ n ≤ xr) ∧ ¬(yl ≤ n ∧ n ≤ yr) := by omega
      rw [covers_cons, ih hx.tail hy, covers_cons, covers_cons]
      grind

theorem intersectionRanges_within (x y : List (Nat × Nat)) :
    Within (intersectionRanges x y) x ∧ Within (intersectionRanges x y) y := by
  fun_induction intersectionRanges x y with
  | case1 y => exact ⟨nofun, nofun⟩
  | case2 x hne => exact ⟨nofun, nofun⟩
  | case3 u v x uu vv y hafter ih => exact ⟨ih.1, ih.2.cons⟩
  | case4 u v x uu vv y hafter hbefore ih => exact ⟨ih.1.cons, ih.2⟩
  | case5 u v x uu vv y hafter hbefore hends ih =>
      exact ⟨within_cons_iff.mpr ⟨⟨_, List.mem_cons_self, le_max_left _ _,
          min_le_left _ _⟩, ih.1.cons⟩,
        within_cons_iff.mpr ⟨⟨_, List.mem_cons_self, le_max_right _ _,
          min_le_right _ _⟩, ih.2⟩⟩
  | case6 u v x uu vv y hafter hbefore hends ih =>
      exact ⟨within_cons_iff.mpr ⟨⟨_, List.mem_cons_self, le_max_left _ _,
          min_le_left _ _⟩, ih.1⟩,
        within_cons_iff.mpr ⟨⟨_, List.mem_cons_self, le_max_right _ _,
          min_le_right _ _⟩, ih.2.cons⟩⟩

theorem intersectionRanges_canonical (x y : List (Nat × Nat))
    (hx : Canonical x) (hy : Canonical y) :
    Canonical (intersectionRanges x y) := by
  fun_induction intersectionRanges x y with
  | case1 y => exact canonical_nil
  | case2 x hne => exact canonical_nil
  | case3 u v x uu vv y hafter ih => exact ih hx hy.tail
  | case4 u v x uu vv y hafter hbefore ih => exact ih hx.tail hy
  | case5 u v x uu vv y hafter hbefore hends ih =>
      obtain ⟨hrange, hlater, -⟩ := canonical_cons.mp hx
      have hrange' : uu ≤ vv := hy.inhabited _ List.mem_cons_self
      refine canonical_cons.mpr ⟨?_, ?_, ih hx.tail hy⟩
      · show max u uu ≤ min v vv
        simp only at hrange
        omega
      · apply (intersectionRanges_within _ _).1.starts
        exact fun later hmem => (min_le_left v vv).trans_lt (hlater later hmem)
  | case6 u v x uu vv y hafter hbefore hends ih =>
      obtain ⟨hrange', hlater, -⟩ := canonical_cons.mp hy
      have hrange : u ≤ v := hx.inhabited _ List.mem_cons_self
      refine canonical_cons.mpr ⟨?_, ?_, ih hx hy.tail⟩
      · show max u uu ≤ min v vv
        simp only at hrange'
        omega
      · apply (intersectionRanges_within _ _).2.starts
        exact fun later hmem => (min_le_right v vv).trans_lt (hlater later hmem)

theorem covers_intersectionRanges (x y : List (Nat × Nat))
    (hx : Canonical x) (hy : Canonical y) (n : Nat) :
    Covers (intersectionRanges x y) n ↔ Covers x n ∧ Covers y n := by
  fun_induction intersectionRanges x y with
  | case1 y => simp
  | case2 x hne => simp
  | case3 u v x uu vv y hafter ih =>
      have hout : Covers ((u, v) :: x) n → ¬(uu ≤ n ∧ n ≤ vv) := by
        intro hcovers
        have hlow : u ≤ n := hx.le_of_covers hcovers
        omega
      rw [ih hx hy.tail, @covers_cons _ _ (uu, vv)]
      grind
  | case4 u v x uu vv y hafter hbefore ih =>
      have hout : Covers ((uu, vv) :: y) n → ¬(u ≤ n ∧ n ≤ v) := by
        intro hcovers
        have hlow : uu ≤ n := hy.le_of_covers hcovers
        omega
      rw [ih hx.tail hy, @covers_cons _ _ (u, v)]
      grind
  | case5 u v x uu vv y hafter hbefore hends ih =>
      have hrest : Covers y n → ¬(u ≤ n ∧ n ≤ v) := by
        intro hcovers
        have hhigh : vv < n := hy.lt_of_covers hcovers
        omega
      have hboth : max u uu ≤ n ∧ n ≤ min v vv ↔
          (u ≤ n ∧ n ≤ v) ∧ uu ≤ n ∧ n ≤ vv := by omega
      rw [covers_cons, ih hx.tail hy, covers_cons, covers_cons]
      grind
  | case6 u v x uu vv y hafter hbefore hends ih =>
      have hrest : Covers x n → ¬(uu ≤ n ∧ n ≤ vv) := by
        intro hcovers
        have hhigh : v < n := hx.lt_of_covers hcovers
        omega
      have hboth : max u uu ≤ n ∧ n ≤ min v vv ↔
          (u ≤ n ∧ n ≤ v) ∧ uu ≤ n ∧ n ≤ vv := by omega
      rw [covers_cons, ih hx hy.tail, covers_cons, covers_cons]
      grind

/-- A result with its last range first, and the ranges still to be added. -/
structure Merging (result rest : List (Nat × Nat)) : Prop where
  ordered : result.Pairwise fun a b => b.2 < a.1
  inhabited : ∀ range ∈ result, range.1 ≤ range.2
  starts : rest.Pairwise fun a b => a.1 ≤ b.1
  inhabited_rest : ∀ range ∈ rest, range.1 ≤ range.2
  behind : ∀ last ∈ result.head?, ∀ range ∈ rest, last.1 ≤ range.1

theorem Merging.step {result rest : List (Nat × Nat)} {range : Nat × Nat}
    (h : Merging result (range :: rest)) :
    Merging (mergeStep result range) rest := by
  obtain ⟨hnext, hstarts⟩ := List.pairwise_cons.mp h.starts
  have hrange := h.inhabited_rest _ List.mem_cons_self
  have hrest : ∀ later ∈ rest, later.1 ≤ later.2 := fun later hmem =>
    h.inhabited_rest _ (List.mem_cons_of_mem _ hmem)
  cases result with
  | nil =>
      exact {
        ordered := List.pairwise_singleton _ _
        inhabited := fun other hmem => by
          rw [List.mem_singleton.mp hmem]
          exact hrange
        starts := hstarts
        inhabited_rest := hrest
        behind := fun last hlast later hmem => by
          cases hlast
          exact hnext later hmem }
  | cons last earlier =>
      obtain ⟨hbelow, hearlier⟩ := List.pairwise_cons.mp h.ordered
      have hlast := h.inhabited _ List.mem_cons_self
      have hbehind := h.behind last rfl
      rw [mergeStep]
      by_cases hmerge : range.1 ≤ last.2 + 1
      · rw [if_pos hmerge]
        exact {
          ordered := List.pairwise_cons.mpr ⟨hbelow, hearlier⟩
          inhabited := fun other hmem => by
            rcases List.mem_cons.mp hmem with rfl | hmem
            · exact hlast.trans (le_max_left _ _)
            · exact h.inhabited _ (List.mem_cons_of_mem _ hmem)
          starts := hstarts
          inhabited_rest := hrest
          behind := fun merged hmerged later hmem => by
            cases hmerged
            exact hbehind later (List.mem_cons_of_mem _ hmem) }
      · rw [if_neg hmerge]
        exact {
          ordered := by
            refine List.pairwise_cons.mpr ⟨fun other hmem => ?_, h.ordered⟩
            rcases List.mem_cons.mp hmem with rfl | hmem
            · omega
            · have hother := hbelow other hmem
              omega
          inhabited := fun other hmem => by
            rcases List.mem_cons.mp hmem with rfl | hmem
            · exact hrange
            · exact h.inhabited _ hmem
          starts := hstarts
          inhabited_rest := hrest
          behind := fun last' hlast' later hmem => by
            cases hlast'
            exact hnext later hmem }

/-- A merged range covers what the two ranges covered, since they overlap or
touch. -/
theorem covers_mergeStep {result rest : List (Nat × Nat)} {range : Nat × Nat}
    (h : Merging result (range :: rest)) (n : Nat) :
    Covers (mergeStep result range) n ↔ Covers (range :: result) n := by
  have hrange := h.inhabited_rest _ List.mem_cons_self
  cases result with
  | nil => rfl
  | cons last earlier =>
      have hlast := h.inhabited _ List.mem_cons_self
      have hbehind := h.behind last rfl range List.mem_cons_self
      rw [mergeStep]
      by_cases hmerge : range.1 ≤ last.2 + 1
      · have hmerged : last.1 ≤ n ∧ n ≤ max last.2 range.2 ↔
            (last.1 ≤ n ∧ n ≤ last.2) ∨ (range.1 ≤ n ∧ n ≤ range.2) := by
          omega
        rw [if_pos hmerge, covers_cons, covers_cons, covers_cons]
        grind
      · rw [if_neg hmerge]

/-- Adding all ranges in the order of their starts. -/
theorem foldl_mergeStep {result rest : List (Nat × Nat)}
    (h : Merging result rest) :
    Canonical (rest.foldl mergeStep result).reverse ∧
      ∀ n, Covers (rest.foldl mergeStep result).reverse n ↔
        Covers result n ∨ Covers rest n := by
  induction rest generalizing result with
  | nil =>
      refine ⟨⟨List.pairwise_reverse.mpr h.ordered, fun range hmem =>
        h.inhabited range (List.mem_reverse.mp hmem)⟩, fun n => ?_⟩
      rw [List.foldl_nil, covers_of_perm (List.reverse_perm result)]
      simp
  | cons range rest ih =>
      obtain ⟨hcanonical, hcovers⟩ := ih h.step
      refine ⟨hcanonical, fun n => ?_⟩
      rw [List.foldl_cons, hcovers, covers_mergeStep h, covers_cons,
        covers_cons]
      grind

theorem unionRanges_spec (x y : List (Nat × Nat)) (hx : Canonical x)
    (hy : Canonical y) :
    Canonical (unionRanges x y) ∧
      ∀ n, Covers (unionRanges x y) n ↔ Covers x n ∨ Covers y n := by
  rw [unionRanges]
  by_cases hxe : x.isEmpty = true
  · rw [if_pos hxe, List.isEmpty_iff.mp hxe]
    exact ⟨hy, fun n => by simp⟩
  rw [if_neg hxe]
  by_cases hye : y.isEmpty = true
  · rw [if_pos hye, List.isEmpty_iff.mp hye]
    exact ⟨hx, fun n => by simp⟩
  rw [if_neg hye]
  generalize hsorted :
    (x ++ y).insertionSort (fun a b => a.1 ≤ b.1) = sorted
  have hperm : sorted.Perm (x ++ y) := by
    rw [← hsorted]
    exact List.perm_insertionSort _ _
  have hmerging : Merging [] sorted := {
    ordered := List.Pairwise.nil
    inhabited := nofun
    starts := by
      rw [← hsorted]
      exact List.pairwise_insertionSort _ _
    inhabited_rest := fun range hmem => by
      rcases List.mem_append.mp (hperm.mem_iff.mp hmem) with hmem | hmem
      · exact hx.inhabited range hmem
      · exact hy.inhabited range hmem
    behind := nofun }
  obtain ⟨hcanonical, hcovers⟩ := foldl_mergeStep hmerging
  refine ⟨hcanonical, fun n => ?_⟩
  rw [hcovers, covers_of_perm hperm, covers_append]
  simp

end Ranges

section Operations

open Ranges

/-- Build from intervals that are in order, as the caller has to see to; one
that is inverted is an internal error. -/
def new (intervals : List (Nat × Nat))
    (ordered : intervals.Pairwise fun a b => a.2 < b.1)
    (bounded : ∀ interval ∈ intervals, interval.2 ≤ 0x10FFFF) :
    Except InternalError IntervalSet :=
  match h : intervals.find? fun interval => decide (interval.2 < interval.1) with
  | some (u, v) => .error ⟨s!"invalid interval ({u}, {v})"⟩
  | none =>
      .ok ⟨intervals, ordered, fun interval hmem => by
        simpa using List.find?_eq_none.mp h interval hmem, bounded⟩

theorem new_eq {intervals : List (Nat × Nat)} (h : Canonical intervals)
    (bounded : ∀ interval ∈ intervals, interval.2 ≤ 0x10FFFF) :
    new intervals h.ordered bounded =
      .ok ⟨intervals, h.ordered, h.inhabited, bounded⟩ := by
  have hnone : (intervals.find? fun interval =>
      decide (interval.2 < interval.1)) = none := by
    apply List.find?_eq_none.mpr
    intro interval hmem
    simpa using h.inhabited interval hmem
  rw [new]
  split
  case h_1 u v hsome =>
    rw [hnone] at hsome
    cases hsome
  case h_2 => rfl

theorem canonical (s : IntervalSet) : Canonical s.intervals :=
  ⟨s.ordered, s.inhabited⟩

theorem covers_iff (s : IntervalSet) (elem : Nat) :
    Covers s.intervals elem ↔ s.contains elem = true := by
  rw [contains_iff]
  constructor
  · rintro ⟨interval, hmem, hlow, hhigh⟩
    obtain ⟨j, hj, rfl⟩ := List.getElem_of_mem hmem
    rw [← s.interval_eq_getElem hj] at hlow hhigh
    exact ⟨j, hj, hlow, hhigh⟩
  · rintro ⟨j, hj, hlow, hhigh⟩
    exact ⟨_, s.interval_mem hj, hlow, hhigh⟩

theorem le_of_covers (s : IntervalSet) {elem : Nat}
    (hcovers : Covers s.intervals elem) : elem ≤ 0x10FFFF :=
  s.le_of_contains ((s.covers_iff elem).mp hcovers)

/-- The end of an inhabited range is covered by it. -/
theorem bounded_of_covers {ranges : List (Nat × Nat)} (h : Canonical ranges)
    (hcovers : ∀ n, Covers ranges n → n ≤ 0x10FFFF) :
    ∀ range ∈ ranges, range.2 ≤ 0x10FFFF := fun range hmem =>
  hcovers _ ⟨range, hmem, h.inhabited range hmem, le_refl _⟩

variable (s t : IntervalSet)

theorem union_canonical : Canonical (unionRanges s.intervals t.intervals) :=
  (unionRanges_spec _ _ s.canonical t.canonical).1

theorem union_bounded :
    ∀ range ∈ unionRanges s.intervals t.intervals, range.2 ≤ 0x10FFFF := by
  apply bounded_of_covers (union_canonical s t)
  intro n hcovers
  rw [(unionRanges_spec _ _ s.canonical t.canonical).2] at hcovers
  rcases hcovers with hcovers | hcovers
  · exact s.le_of_covers hcovers
  · exact t.le_of_covers hcovers

theorem difference_canonical :
    Canonical (differenceRanges s.intervals t.intervals) :=
  differenceRanges_canonical _ _ s.canonical t.canonical

theorem difference_bounded :
    ∀ range ∈ differenceRanges s.intervals t.intervals,
      range.2 ≤ 0x10FFFF := by
  apply bounded_of_covers (difference_canonical s t)
  intro n hcovers
  rw [covers_differenceRanges _ _ s.canonical t.canonical] at hcovers
  exact s.le_of_covers hcovers.1

theorem intersection_canonical :
    Canonical (intersectionRanges s.intervals t.intervals) :=
  intersectionRanges_canonical _ _ s.canonical t.canonical

theorem intersection_bounded :
    ∀ range ∈ intersectionRanges s.intervals t.intervals,
      range.2 ≤ 0x10FFFF := by
  apply bounded_of_covers (intersection_canonical s t)
  intro n hcovers
  rw [covers_intersectionRanges _ _ s.canonical t.canonical] at hcovers
  exact s.le_of_covers hcovers.1

/-- Every member of either set. -/
def union : Except InternalError IntervalSet :=
  new (unionRanges s.intervals t.intervals) (union_canonical s t).ordered
    (union_bounded s t)

/-- The members of the first set that are not in the other one. -/
def difference : Except InternalError IntervalSet :=
  new (differenceRanges s.intervals t.intervals)
    (difference_canonical s t).ordered (difference_bounded s t)

/-- The members of both sets. -/
def intersection : Except InternalError IntervalSet :=
  new (intersectionRanges s.intervals t.intervals)
    (intersection_canonical s t).ordered (intersection_bounded s t)

theorem union_spec :
    ∃ r, s.union t = .ok r ∧ ∀ n, r.contains n = true ↔
      s.contains n = true ∨ t.contains n = true := by
  refine ⟨_, new_eq (union_canonical s t) (union_bounded s t), fun n => ?_⟩
  rw [← covers_iff, (unionRanges_spec _ _ s.canonical t.canonical).2,
    s.covers_iff, t.covers_iff]

theorem difference_spec :
    ∃ r, s.difference t = .ok r ∧ ∀ n, r.contains n = true ↔
      s.contains n = true ∧ ¬t.contains n = true := by
  refine ⟨_, new_eq (difference_canonical s t) (difference_bounded s t),
    fun n => ?_⟩
  rw [← covers_iff, covers_differenceRanges _ _ s.canonical t.canonical,
    s.covers_iff, t.covers_iff]

theorem intersection_spec :
    ∃ r, s.intersection t = .ok r ∧ ∀ n, r.contains n = true ↔
      s.contains n = true ∧ t.contains n = true := by
  refine ⟨_, new_eq (intersection_canonical s t) (intersection_bounded s t),
    fun n => ?_⟩
  rw [← covers_iff, covers_intersectionRanges _ _ s.canonical t.canonical,
    s.covers_iff, t.covers_iff]

end Operations

section Positions

variable (s : IntervalSet)

theorem index_eq_none {elem : Nat} (hout : s.contains elem = false) :
    s.index elem = none := by
  rw [index]
  rw [contains] at hout
  cases hfound : s.intervalFor elem with
  | none => rfl
  | some j =>
      rw [hfound] at hout
      simp only [] at hout ⊢
      rw [if_neg (of_decide_eq_false hout)]

theorem get_lt_len {i n : Nat} (hget : s.get i = some n) : i < s.len := by
  by_contra hge
  rw [get] at hget
  simp only [if_neg (show ¬(i : Int) < 0 by omega)] at hget
  rw [if_pos (by omega)] at hget
  cases hget

/-- A position lies before the one looked for exactly if its member lies below
the value. -/
theorem lt_indexAbove_iff {i n : Nat} (hget : s.get i = some n) (value : Nat) :
    i < s.indexAbove value ↔ n < value := by
  obtain ⟨j, hj, hlow, hhigh⟩ :=
    s.exists_interval_of_lt_len (s.get_lt_len hget)
  rw [s.get_of_interval hj hlow hhigh, Option.some.injEq] at hget
  have hoffset := s.offset_succ hj
  have hinside := s.interval_le hj
  rcases hpoint : s.partitionPoint value with _ | k
  · rw [s.indexAbove_of_partitionPoint_eq_zero hpoint]
    have hstart := s.lt_interval_partitionPoint (by
      rw [hpoint]
      omega)
    rw [hpoint] at hstart
    have hfirst : (s.interval 0).1 ≤ (s.interval j).1 := by
      rcases Nat.eq_zero_or_pos j with rfl | hpos
      · exact le_refl _
      · have hsep := s.interval_lt hpos hj
        have hle := s.interval_le (Nat.lt_trans hpos hj)
        omega
    omega
  · rw [s.indexAbove_of_partitionPoint_eq_succ hpoint]
    have hk : k < s.intervals.length := by
      have hle := s.partitionPoint_le value
      omega
    have hstart := s.interval_le_of_lt_partitionPoint
      (show k < s.partitionPoint value by omega)
    have hoffset' := s.offset_succ hk
    rcases Nat.lt_trichotomy j k with hlt | rfl | hgt
    · have hsep := s.interval_lt hlt hk
      have hmono := s.offset_mono (show j + 1 ≤ k from hlt) hk.le
      omega
    · omega
    · have hmono := s.offset_mono (show k + 1 ≤ j from hgt) hj.le
      have hnext := s.lt_interval_partitionPoint (by
        rw [hpoint]
        omega)
      rw [hpoint] at hnext
      have hfirst : (s.interval (k + 1)).1 ≤ (s.interval j).1 := by
        rcases Nat.eq_or_lt_of_le (show k + 1 ≤ j from hgt) with heq | hlater
        · rw [heq]
        · have hsep := s.interval_lt hlater hj
          have hle := s.interval_le (Nat.lt_trans hlater hj)
          omega
      omega

/-- The operations are those of sets, and the positions of a set are in one to
one correspondence with its members. -/
theorem interval_algebra (s t : IntervalSet) :
    (∃ r, s.union t = .ok r ∧ ∀ n, r.contains n = true ↔
      s.contains n = true ∨ t.contains n = true) ∧
    (∃ r, s.difference t = .ok r ∧ ∀ n, r.contains n = true ↔
      s.contains n = true ∧ ¬t.contains n = true) ∧
    (∃ r, s.intersection t = .ok r ∧ ∀ n, r.contains n = true ↔
      s.contains n = true ∧ t.contains n = true) ∧
    (∀ i < s.len, ∃ n, s.get i = some n ∧ s.contains n = true ∧
      s.index n = some i) ∧
    (∀ i : Nat, s.len ≤ i → s.get i = none) ∧
    (∀ n, s.contains n = true →
      ∃ i < s.len, s.index n = some i ∧ s.get i = some n) ∧
    (∀ n, s.contains n = false → s.index n = none) ∧
    ∀ value, s.indexAbove value ≤ s.len ∧
      ∀ i n : Nat, s.get i = some n →
        (s.indexAbove value ≤ i ↔ value ≤ n) := by
  refine ⟨union_spec s t, difference_spec s t, intersection_spec s t,
    fun i => s.index_get, ?_, fun n => s.get_index, fun n => s.index_eq_none,
    fun value => ⟨s.indexAbove_le_len value, ?_⟩⟩
  · intro i hi
    cases hget : s.get i with
    | none => rfl
    | some n =>
        have hlt := s.get_lt_len hget
        omega
  · intro i n hget
    have hiff := s.lt_indexAbove_iff hget value
    omega

end Positions

end IntervalSet

end Hegel
