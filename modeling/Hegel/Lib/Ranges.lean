/-
Sets as lists of ranges.  A range includes both of its ends; the ranges of a
canonical list are inhabited, disjoint and in order, so what is covered by the
first one lies below all that is covered by the others.
-/
import Mathlib.Data.List.Pairwise
import Mathlib.Order.Lattice

namespace Hegel

namespace Ranges

variable {Point : Type} [LinearOrder Point]

/-- Whether a point lies in one of the ranges. -/
def Covers (ranges : List (Point × Point)) (point : Point) : Prop :=
  ∃ range ∈ ranges, range.1 ≤ point ∧ point ≤ range.2

/-- Inhabited, disjoint and in order. -/
structure Canonical (ranges : List (Point × Point)) : Prop where
  ordered : ranges.Pairwise fun a b => a.2 < b.1
  inhabited : ∀ range ∈ ranges, range.1 ≤ range.2

/-- Whether every range lies inside one of another list. -/
def Within (inner outer : List (Point × Point)) : Prop :=
  ∀ range ∈ inner, ∃ container ∈ outer,
    container.1 ≤ range.1 ∧ range.2 ≤ container.2

variable {range : Point × Point} {ranges others : List (Point × Point)}
  {point bound : Point}

@[simp] theorem covers_nil : Covers [] point ↔ False := by
  simp [Covers]

@[simp] theorem covers_cons :
    Covers (range :: ranges) point ↔
      (range.1 ≤ point ∧ point ≤ range.2) ∨ Covers ranges point := by
  simp [Covers]

theorem covers_append :
    Covers (ranges ++ others) point ↔
      Covers ranges point ∨ Covers others point := by
  simp [Covers, or_and_right, exists_or]

theorem covers_of_perm (hperm : ranges.Perm others) :
    Covers ranges point ↔ Covers others point := by
  simp only [Covers, hperm.mem_iff]

theorem canonical_nil : Canonical ([] : List (Point × Point)) where
  ordered := List.Pairwise.nil
  inhabited := nofun

theorem canonical_cons :
    Canonical (range :: ranges) ↔
      range.1 ≤ range.2 ∧ (∀ later ∈ ranges, range.2 < later.1) ∧
        Canonical ranges := by
  constructor
  · intro h
    obtain ⟨hlater, hordered⟩ := List.pairwise_cons.mp h.ordered
    exact ⟨h.inhabited _ List.mem_cons_self, hlater, hordered,
      fun later hmem => h.inhabited _ (List.mem_cons_of_mem _ hmem)⟩
  · rintro ⟨hrange, hlater, hrest⟩
    refine ⟨List.pairwise_cons.mpr ⟨hlater, hrest.ordered⟩, ?_⟩
    intro later hmem
    rcases List.mem_cons.mp hmem with rfl | hmem
    · exact hrange
    · exact hrest.inhabited _ hmem

/-- What later ranges cover lies above a bound that lies below their starts. -/
theorem lt_of_covers (hbelow : ∀ later ∈ ranges, bound < later.1)
    (hcovers : Covers ranges point) : bound < point := by
  obtain ⟨later, hmem, hlow, -⟩ := hcovers
  exact (hbelow later hmem).trans_le hlow

theorem Canonical.tail (hcanonical : Canonical (range :: ranges)) :
    Canonical ranges :=
  (canonical_cons.mp hcanonical).2.2

/-- Nothing is covered below the first range. -/
theorem Canonical.le_of_covers (hcanonical : Canonical (range :: ranges))
    (hcovers : Covers (range :: ranges) point) : range.1 ≤ point := by
  obtain ⟨hrange, hlater, -⟩ := canonical_cons.mp hcanonical
  rcases covers_cons.mp hcovers with hfirst | hrest
  · exact hfirst.1
  · exact hrange.trans (lt_of_covers hlater hrest).le

/-- The other ranges cover nothing up to the end of the first one. -/
theorem Canonical.lt_of_covers (hcanonical : Canonical (range :: ranges))
    (hcovers : Covers ranges point) : range.2 < point :=
  Ranges.lt_of_covers (canonical_cons.mp hcanonical).2.1 hcovers

theorem within_refl (ranges : List (Point × Point)) : Within ranges ranges :=
  fun range hmem => ⟨range, hmem, le_refl _, le_refl _⟩

theorem Within.cons (hwithin : Within ranges others) :
    Within ranges (range :: others) := by
  intro inner hmem
  obtain ⟨container, hcontainer, hinside⟩ := hwithin inner hmem
  exact ⟨container, List.mem_cons_of_mem _ hcontainer, hinside⟩

theorem within_cons_iff :
    Within (range :: ranges) others ↔
      (∃ container ∈ others,
        container.1 ≤ range.1 ∧ range.2 ≤ container.2) ∧
      Within ranges others := by
  simp [Within]

/-- Widening the ranges that are to contain others. -/
theorem Within.mono {outer : List (Point × Point)}
    (hwithin : Within ranges others) (houter : Within others outer) :
    Within ranges outer := by
  intro inner hmem
  obtain ⟨middle, hmiddle, hlow, hhigh⟩ := hwithin inner hmem
  obtain ⟨container, hcontainer, hlow', hhigh'⟩ := houter middle hmiddle
  exact ⟨container, hcontainer, hlow'.trans hlow, hhigh.trans hhigh'⟩

/-- A bound below the starts of the containers is one below what they contain. -/
theorem Within.starts (hwithin : Within ranges others)
    (hbelow : ∀ container ∈ others, bound < container.1) :
    ∀ inner ∈ ranges, bound < inner.1 := by
  intro inner hmem
  obtain ⟨container, hcontainer, hlow, -⟩ := hwithin inner hmem
  exact (hbelow container hcontainer).trans_le hlow

end Ranges

end Hegel
