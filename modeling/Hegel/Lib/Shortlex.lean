/-
Shortlex comparison of lists: the shorter list first, lists of one length by
their first difference.  The comparison is linear when the one on elements is,
and well founded with it.
-/
import Mathlib.Data.List.Shortlex

namespace Hegel

variable {α : Type}

/-- A comparison whose strict part is transitive and whose ties are equalities
is transitive. -/
theorem isLE_trans_of_lt_trans (cmp : α → α → Ordering) [Std.LawfulEqCmp cmp]
    (hlt : ∀ a b c, cmp a b = .lt → cmp b c = .lt → cmp a c = .lt)
    {a b c : α} (hab : (cmp a b).isLE) (hbc : (cmp b c).isLE) :
    (cmp a c).isLE := by
  rcases Ordering.isLE_iff_eq_lt_or_eq_eq.mp hab with hab | hab
  · rcases Ordering.isLE_iff_eq_lt_or_eq_eq.mp hbc with hbc | hbc
    · rw [hlt a b c hab hbc]
      rfl
    · rw [← Std.LawfulEqCmp.eq_of_compare hbc, hab]
      rfl
  · rw [Std.LawfulEqCmp.eq_of_compare hab]
    exact hbc

/-- The verdicts on a first and a second, the second and a third, and the first
and the third thing agree with each other, as those of an order do. -/
def Composes (left right across : Ordering) : Prop :=
  (left = .eq → across = right) ∧ (right = .eq → across = left) ∧
    (left = right → across = left)

theorem composes_cmp (cmp : α → α → Ordering) [Std.TransCmp cmp] (a b c : α) :
    Composes (cmp a b) (cmp b c) (cmp a c) := by
  constructor
  · intro hab
    exact Std.TransCmp.congr_left hab
  · constructor
    · intro hbc
      exact (Std.TransCmp.congr_right hbc).symm
    · intro hsame
      cases hab : cmp a b with
      | lt => exact Std.TransCmp.lt_trans hab (hsame.symm.trans hab)
      | eq => exact Std.TransCmp.eq_trans hab (hsame.symm.trans hab)
      | gt => exact Std.TransCmp.gt_trans hab (hsame.symm.trans hab)

/-- A later comparison only matters between things that an earlier one leaves
together. -/
theorem Composes.then {left right across left' right' across' : Ordering}
    (hfirst : Composes left right across)
    (hsecond : left = .eq → right = .eq → Composes left' right' across') :
    Composes (left.then left') (right.then right') (across.then across') := by
  obtain ⟨hleft, hright, hsame⟩ := hfirst
  cases left with
  | eq =>
      rw [hleft rfl]
      cases right with
      | eq => exact hsecond rfl rfl
      | lt => exact ⟨fun _ => rfl, fun h => (by cases h), fun h => h.symm⟩
      | gt => exact ⟨fun _ => rfl, fun h => (by cases h), fun h => h.symm⟩
  | lt =>
      cases right with
      | gt => exact ⟨fun h => (by cases h), fun h => (by cases h),
          fun h => (by cases h)⟩
      | eq =>
          rw [hright rfl]
          exact ⟨fun h => (by cases h), fun _ => rfl, fun _ => rfl⟩
      | lt =>
          rw [hsame rfl]
          exact ⟨fun h => (by cases h), fun _ => rfl, fun _ => rfl⟩
  | gt =>
      cases right with
      | lt => exact ⟨fun h => (by cases h), fun h => (by cases h),
          fun h => (by cases h)⟩
      | eq =>
          rw [hright rfl]
          exact ⟨fun h => (by cases h), fun _ => rfl, fun _ => rfl⟩
      | gt =>
          rw [hsame rfl]
          exact ⟨fun h => (by cases h), fun _ => rfl, fun _ => rfl⟩

theorem Composes.isLE {left right across : Ordering}
    (hcomposes : Composes left right across) (hleft : left.isLE)
    (hright : right.isLE) : across.isLE := by
  obtain ⟨hleftEq, hrightEq, hsame⟩ := hcomposes
  cases left with
  | eq => rwa [hleftEq rfl]
  | gt => cases hleft
  | lt =>
      cases right with
      | eq => rwa [hrightEq rfl]
      | gt => cases hright
      | lt => rwa [hsame rfl]

/-- Compare two lists element by element, as far as both go. -/
def elementsCmp (cmp : α → α → Ordering) : List α → List α → Ordering
  | a :: as, b :: bs => (cmp a b).then (elementsCmp cmp as bs)
  | _, _ => .eq

/-- Compare two lists by length, then element by element. -/
def shortlexCmp (cmp : α → α → Ordering) (left right : List α) : Ordering :=
  (compare left.length right.length).then (elementsCmp cmp left right)

section Laws

variable {cmp : α → α → Ordering}

theorem elementsCmp_eq_eq_iff [Std.LawfulEqCmp cmp] {left right : List α}
    (hlength : left.length = right.length) :
    elementsCmp cmp left right = .eq ↔ left = right := by
  induction left generalizing right with
  | nil =>
      rw [List.length_eq_zero_iff.mp hlength.symm]
      simp [elementsCmp]
  | cons head tail ih =>
      cases right with
      | nil => simp at hlength
      | cons head' tail' =>
          rw [elementsCmp, Ordering.then_eq_eq,
            ih (by simpa using hlength), Std.LawfulEqCmp.compare_eq_iff_eq,
            List.cons.injEq]

/-- Element by element, the verdict below is the dictionary order. -/
theorem elementsCmp_eq_lt_iff [Std.LawfulEqCmp cmp] {left right : List α}
    (hlength : left.length = right.length) :
    elementsCmp cmp left right = .lt ↔
      List.Lex (fun a b => cmp a b = .lt) left right := by
  induction left generalizing right with
  | nil =>
      rw [List.length_eq_zero_iff.mp hlength.symm]
      simp [elementsCmp]
  | cons head tail ih =>
      cases right with
      | nil => simp at hlength
      | cons head' tail' =>
          have htail : elementsCmp cmp tail tail' = .lt ↔
              List.Lex (fun a b => cmp a b = .lt) tail tail' :=
            ih (by simpa using hlength)
          rw [elementsCmp, Ordering.then_eq_lt, htail,
            Std.LawfulEqCmp.compare_eq_iff_eq, List.cons_lex_cons_iff]

theorem shortlexCmp_eq_lt_iff [Std.LawfulEqCmp cmp] (left right : List α) :
    shortlexCmp cmp left right = .lt ↔
      List.Shortlex (fun a b => cmp a b = .lt) left right := by
  rw [shortlexCmp, Ordering.then_eq_lt, Nat.compare_eq_lt, Nat.compare_eq_eq,
    List.shortlex_def]
  refine or_congr_right (and_congr_right fun hlength => ?_)
  exact elementsCmp_eq_lt_iff hlength

theorem elementsCmp_swap [Std.OrientedCmp cmp] (left right : List α) :
    (elementsCmp cmp left right).swap = elementsCmp cmp right left := by
  induction left generalizing right with
  | nil => cases right <;> rfl
  | cons head tail ih =>
      cases right with
      | nil => rfl
      | cons head' tail' =>
          rw [elementsCmp, elementsCmp, Ordering.swap_then, ih,
            ← Std.OrientedCmp.eq_swap]

instance [Std.OrientedCmp cmp] : Std.OrientedCmp (shortlexCmp cmp) where
  eq_swap := by
    intro left right
    rw [shortlexCmp, shortlexCmp, Ordering.swap_then, elementsCmp_swap,
      Nat.compare_swap]

instance [Std.LawfulEqCmp cmp] : Std.LawfulEqCmp (shortlexCmp cmp) where
  compare_self := by
    intro list
    rw [shortlexCmp, (elementsCmp_eq_eq_iff rfl).mpr rfl,
      Nat.compare_eq_eq.mpr rfl]
    rfl
  eq_of_compare := by
    intro left right heq
    rw [shortlexCmp, Ordering.then_eq_eq, Nat.compare_eq_eq] at heq
    exact (elementsCmp_eq_eq_iff heq.1).mp heq.2

theorem elementsCmp_lt_trans [Std.TransCmp cmp] [Std.LawfulEqCmp cmp]
    {first second third : List α}
    (hleft : elementsCmp cmp first second = .lt)
    (hright : elementsCmp cmp second third = .lt) :
    elementsCmp cmp first third = .lt := by
  induction first generalizing second third with
  | nil => simp [elementsCmp] at hleft
  | cons a as ih =>
      cases second with
      | nil => simp [elementsCmp] at hleft
      | cons b bs =>
          cases third with
          | nil => simp [elementsCmp] at hright
          | cons c cs =>
              rw [elementsCmp, Ordering.then_eq_lt] at hleft hright ⊢
              rcases hleft with hab | ⟨hab, hleft⟩
              · rcases hright with hbc | ⟨hbc, _⟩
                · exact Or.inl (Std.TransCmp.lt_trans hab hbc)
                · exact Or.inl (Std.LawfulEqCmp.eq_of_compare hbc ▸ hab)
              · have hsame := Std.LawfulEqCmp.eq_of_compare hab
                subst hsame
                rcases hright with hac | ⟨hac, hright⟩
                · exact Or.inl hac
                · exact Or.inr ⟨hac, ih hleft hright⟩

theorem shortlexCmp_lt_trans [Std.TransCmp cmp] [Std.LawfulEqCmp cmp]
    {first second third : List α}
    (hleft : shortlexCmp cmp first second = .lt)
    (hright : shortlexCmp cmp second third = .lt) :
    shortlexCmp cmp first third = .lt := by
  rw [shortlexCmp, Ordering.then_eq_lt, Nat.compare_eq_lt,
    Nat.compare_eq_eq] at hleft hright ⊢
  rcases hleft with hleft | ⟨hlengthLeft, hleft⟩
  · rcases hright with hright | ⟨hlengthRight, _⟩
    · exact Or.inl (Nat.lt_trans hleft hright)
    · exact Or.inl (hlengthRight ▸ hleft)
  · rcases hright with hright | ⟨hlengthRight, hright⟩
    · exact Or.inl (hlengthLeft ▸ hright)
    · exact Or.inr ⟨hlengthLeft.trans hlengthRight,
        elementsCmp_lt_trans hleft hright⟩

instance [Std.TransCmp cmp] [Std.LawfulEqCmp cmp] :
    Std.TransCmp (shortlexCmp cmp) where
  isLE_trans := by
    intro a b c
    exact isLE_trans_of_lt_trans (shortlexCmp cmp)
      fun _ _ _ => shortlexCmp_lt_trans

/-- There is no infinite shortlex descent over well-ordered elements. -/
theorem wellFounded_shortlexCmp [Std.LawfulEqCmp cmp]
    (helements : WellFounded fun a b => cmp a b = .lt) :
    WellFounded fun left right => shortlexCmp cmp left right = .lt := by
  refine Subrelation.wf ?_ (List.Shortlex.wf helements)
  intro left right hcmp
  exact (shortlexCmp_eq_lt_iff left right).mp hcmp

end Laws

end Hegel
