/-
Lists cut into pieces with gaps around them.  Whatever order the pieces are
put back in, the elements are the same.
-/
import Mathlib.Data.List.Perm.Basic
import Mathlib.Data.List.GetD

namespace Hegel

variable {α : Type}

/-- Gaps and pieces in turn, from a gap on. -/
def weave : List (List α) → List (List α) → List α
  | gap :: gaps, piece :: pieces => gap ++ piece ++ weave gaps pieces
  | gaps, pieces => gaps.flatten ++ pieces.flatten

/-- What is before the first gap belongs to it. -/
theorem append_weave (before gap : List α) (gaps pieces : List (List α)) :
    before ++ weave (gap :: gaps) pieces =
      weave ((before ++ gap) :: gaps) pieces := by
  cases pieces with
  | nil => simp [weave]
  | cons piece pieces => simp only [weave, List.append_assoc]

theorem weave_perm (gaps pieces : List (List α)) :
    (weave gaps pieces).Perm (gaps.flatten ++ pieces.flatten) := by
  induction gaps generalizing pieces with
  | nil => cases pieces <;> exact List.Perm.refl _
  | cons gap gaps ih =>
      cases pieces with
      | nil => exact List.Perm.refl _
      | cons piece pieces =>
          have hrest : (piece ++ weave gaps pieces).Perm
              (gaps.flatten ++ (piece ++ pieces.flatten)) :=
            ((ih pieces).append_left piece).trans
              (List.perm_append_comm_assoc _ _ _)
          rw [weave, List.flatten_cons, List.flatten_cons, List.append_assoc,
            List.append_assoc]
          exact hrest.append_left gap

/-- Pieces in another order give the same elements. -/
theorem weave_perm_of_perm (gaps : List (List α))
    {pieces pieces' : List (List α)} (hperm : pieces.Perm pieces') :
    (weave gaps pieces).Perm (weave gaps pieces') :=
  (weave_perm gaps pieces).trans
    ((hperm.flatten.append_left gaps.flatten).trans
      (weave_perm gaps pieces').symm)

/-- Ranges that follow one another, from a position up to another. -/
def InOrder (start : Nat) : List (Nat × Nat) → Nat → Prop
  | [], stop => start ≤ stop
  | range :: rest, stop =>
      start ≤ range.1 ∧ range.1 ≤ range.2 ∧ InOrder range.2 rest stop

instance decidableInOrder :
    (start : Nat) → (ranges : List (Nat × Nat)) → (stop : Nat) →
      Decidable (InOrder start ranges stop)
  | start, [], stop => inferInstanceAs (Decidable (start ≤ stop))
  | start, range :: rest, stop =>
      have := decidableInOrder range.2 rest stop
      inferInstanceAs (Decidable (start ≤ range.1 ∧ range.1 ≤ range.2 ∧
        InOrder range.2 rest stop))

/-- What is between ranges, before the first and after the last. -/
def gapsFrom (items : List α) (start : Nat) :
    List (Nat × Nat) → List (List α)
  | [] => [items.drop start]
  | range :: rest => items.extract start range.1 :: gapsFrom items range.2 rest

/-- What is in a range. -/
def pieceAt (items : List α) (range : Nat × Nat) : List α :=
  items.extract range.1 range.2

theorem InOrder.le {start stop : Nat} {ranges : List (Nat × Nat)}
    (horder : InOrder start ranges stop) : start ≤ stop := by
  induction ranges generalizing start with
  | nil => exact horder
  | cons range rest ih =>
      exact Nat.le_trans horder.1 (Nat.le_trans horder.2.1 (ih horder.2.2))

theorem InOrder.inside {start stop : Nat} {ranges : List (Nat × Nat)}
    (horder : InOrder start ranges stop) {range : Nat × Nat}
    (hmem : range ∈ ranges) : range.1 ≤ range.2 ∧ range.2 ≤ stop := by
  induction ranges generalizing start with
  | nil => exact absurd hmem List.not_mem_nil
  | cons first rest ih =>
      rcases List.mem_cons.mp hmem with rfl | hrest
      · exact ⟨horder.2.1, horder.2.2.le⟩
      · exact ih horder.2.2 hrest

theorem extract_append_drop (items : List α) {start stop : Nat}
    (hle : start ≤ stop) :
    items.extract start stop ++ items.drop stop = items.drop start := by
  have hsplit := List.take_append_drop (stop - start) (items.drop start)
  rw [List.drop_drop, Nat.add_sub_cancel' hle] at hsplit
  rw [List.extract_eq_take_drop]
  exact hsplit

/-- The gaps and the ranges make up the whole. -/
theorem weave_gapsFrom {start stop : Nat} {ranges : List (Nat × Nat)}
    (items : List α) (horder : InOrder start ranges stop) :
    weave (gapsFrom items start ranges) (ranges.map (pieceAt items)) =
      items.drop start := by
  induction ranges generalizing start with
  | nil => simp [gapsFrom, weave]
  | cons range rest ih =>
      rw [gapsFrom, List.map_cons, weave, ih horder.2.2, pieceAt,
        List.append_assoc, extract_append_drop items horder.2.1,
        extract_append_drop items horder.1]

/-- A permutation of positions permutes what is looked up at them. -/
theorem perm_map_getD {β : Type} (items : List β) (fallback : β)
    {permutation : List Nat}
    (hperm : permutation.Perm (List.range items.length)) :
    (permutation.map (items.getD · fallback)).Perm items := by
  have hall : (List.range items.length).map (items.getD · fallback) =
      items := by
    apply List.ext_getElem
    · rw [List.length_map, List.length_range]
    · intro i _ hi
      rw [List.getElem_map, List.getElem_range, List.getD_eq_getElem _ _ hi]
  exact (hperm.map _).trans (List.Perm.of_eq hall)

end Hegel
