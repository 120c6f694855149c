/-
The smallest elements of a set.  Sorting a list without repetitions and cutting
it gives the smallest elements of the set of its elements.
-/
import Mathlib.Data.Set.Card

namespace Hegel

variable {α : Type}

/-- The smallest elements of a set, so many of them: those that have fewer
elements below them. -/
def leastOf (cmp : α → α → Ordering) (count : Nat) (set : Set α) : Set α :=
  {a | a ∈ set ∧ {b | b ∈ set ∧ cmp b a = .lt}.encard < count}

section Sorted

variable {cmp : α → α → Ordering} [Std.OrientedCmp cmp] {list : List α}

theorem cmp_self_ne_lt (a : α) : cmp a a ≠ .lt := by
  have hself : cmp a a = .eq := Std.ReflCmp.compare_self
  rw [hself]
  decide

theorem cmp_asymm {a b : α} (hlt : cmp a b = .lt) : cmp b a ≠ .lt := by
  have hgt : cmp b a = .gt := by
    rw [@Std.OrientedCmp.eq_swap _ cmp _ b a, hlt]
    rfl
  rw [hgt]
  decide

theorem nodup_of_pairwise_lt
    (hsorted : list.Pairwise fun a b => cmp a b = .lt) : list.Nodup := by
  apply List.nodup_iff_pairwise_ne.mpr
  apply hsorted.imp
  rintro a b hlt rfl
  exact cmp_self_ne_lt a hlt

/-- In a sorted list the elements below another one stand before it. -/
theorem encard_below {before after : List α} {a : α}
    (hsorted : (before ++ a :: after).Pairwise fun a b => cmp a b = .lt) :
    {b | b ∈ {b | b ∈ before ++ a :: after} ∧ cmp b a = .lt}.encard =
      before.length := by
  classical
  have hbelow : {b | b ∈ {b | b ∈ before ++ a :: after} ∧ cmp b a = .lt} =
      ↑before.toFinset := by
    obtain ⟨-, hafter, hbefore⟩ := List.pairwise_append.mp hsorted
    ext b
    rw [List.coe_toFinset, Set.mem_ofPred_eq, Set.mem_ofPred_eq,
      Set.mem_ofPred_eq, List.mem_append, List.mem_cons]
    constructor
    · rintro ⟨hmem | rfl | hmem, hlt⟩
      · exact hmem
      · exact absurd hlt (cmp_self_ne_lt b)
      · exact absurd hlt (cmp_asymm ((List.pairwise_cons.mp hafter).1 b hmem))
    · intro hmem
      exact ⟨.inl hmem, hbefore b hmem a List.mem_cons_self⟩
  have hnodup := (nodup_of_pairwise_lt hsorted).of_append_left
  rw [hbelow, Set.encard_coe_eq_coe_finsetCard,
    List.toFinset_card_of_nodup hnodup]

/-- A cut of a sorted list is made of its smallest elements. -/
theorem mem_take_iff_leastOf
    (hsorted : list.Pairwise fun a b => cmp a b = .lt) (count : Nat) (a : α) :
    a ∈ list.take count ↔ a ∈ leastOf cmp count {b | b ∈ list} := by
  by_cases hmem : a ∈ list
  · obtain ⟨before, after, rfl⟩ := List.append_of_mem hmem
    have hcount : a ∈ leastOf cmp count {b | b ∈ before ++ a :: after} ↔
        before.length < count := by
      rw [leastOf, Set.mem_ofPred_eq, encard_below hsorted, Nat.cast_lt]
      exact and_iff_right hmem
    have hnodup := nodup_of_pairwise_lt hsorted
    have hfresh : a ∉ before := fun h =>
      (List.nodup_append.mp hnodup).2.2 a h a List.mem_cons_self rfl
    rw [hcount, List.take_append, List.mem_append]
    constructor
    · rintro (hbefore | hafter)
      · exact absurd (List.mem_of_mem_take hbefore) hfresh
      · by_contra hle
        rw [Nat.sub_eq_zero_of_le (Nat.le_of_not_lt hle)] at hafter
        cases hafter
    · intro hlt
      right
      obtain ⟨rest, hrest⟩ : ∃ rest, count - before.length = rest + 1 :=
        ⟨count - before.length - 1, by omega⟩
      rw [hrest, List.take_succ_cons]
      exact List.mem_cons_self
  · exact iff_of_false (fun h => hmem (List.mem_of_mem_take h))
      fun h => hmem h.1

end Sorted

section Sorting

variable {cmp : α → α → Ordering} [Std.TransCmp cmp] [Std.LawfulEqCmp cmp]

/-- Sorting a list without repetitions leaves no ties. -/
theorem pairwise_lt_mergeSort {list : List α} (hnodup : list.Nodup) :
    (list.mergeSort fun a b => (cmp a b).isLE).Pairwise
      fun a b => cmp a b = .lt := by
  have hsorted : (list.mergeSort fun a b => (cmp a b).isLE).Pairwise
      fun a b => (cmp a b).isLE = true := by
    apply List.pairwise_mergeSort
    · exact fun a b c hab hbc => Std.TransCmp.isLE_trans hab hbc
    · intro a b
      rw [@Std.OrientedCmp.eq_swap _ cmp _ b a]
      cases cmp a b <;> rfl
  have hnodup' : (list.mergeSort fun a b => (cmp a b).isLE).Nodup :=
    (List.mergeSort_perm list _).nodup_iff.mpr hnodup
  apply (hsorted.and (List.nodup_iff_pairwise_ne.mp hnodup')).imp
  rintro a b ⟨hle, hne⟩
  rcases Ordering.isLE_iff_eq_lt_or_eq_eq.mp hle with hlt | heq
  · exact hlt
  · exact absurd (Std.LawfulEqCmp.eq_of_compare heq) hne

/-- The first elements of a sorted list without repetitions are the smallest
ones. -/
theorem mem_take_mergeSort_iff {list : List α} (hnodup : list.Nodup)
    (count : Nat) (a : α) :
    a ∈ (list.mergeSort fun a b => (cmp a b).isLE).take count ↔
      a ∈ leastOf cmp count {b | b ∈ list} := by
  rw [mem_take_iff_leastOf (pairwise_lt_mergeSort hnodup)]
  simp only [List.mem_mergeSort]

end Sorting

end Hegel
