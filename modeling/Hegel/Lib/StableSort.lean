/-
Stable sorting.  Two lists that keep the elements of each class of equals in
the same order have one sorted form, so a list may be sorted in parts before it
is sorted as a whole.
-/
import Mathlib.Data.List.Sort

namespace Hegel

variable {α : Type} (r : α → α → Prop) [DecidableRel r]

/-- The elements that are as large as one. -/
def classOf (a : α) (l : List α) : List α :=
  l.filter fun b => decide (r a b ∧ r b a)

/-- The elements of each class occur in the same order. -/
def SameClasses (l l' : List α) : Prop :=
  ∀ a, classOf r a l = classOf r a l'

section Classes

variable {r} {a b : α} {l l' left right left' right' : List α}

theorem classOf_cons_of_rel (hrel : r a b ∧ r b a) :
    classOf r a (b :: l) = b :: classOf r a l :=
  List.filter_cons_of_pos (decide_eq_true hrel)

theorem classOf_cons_of_not (hrel : ¬(r a b ∧ r b a)) :
    classOf r a (b :: l) = classOf r a l :=
  List.filter_cons_of_neg (by rwa [decide_eq_true_eq])

theorem SameClasses.append (hleft : SameClasses r left left')
    (hright : SameClasses r right right') :
    SameClasses r (left ++ right) (left' ++ right') := by
  intro a
  rw [classOf, classOf, List.filter_append, List.filter_append]
  exact congrArg₂ (· ++ ·) (hleft a) (hright a)

/-- An element is inserted before its equals. -/
theorem sameClasses_orderedInsert [IsTrans α r] (a : α) (l : List α) :
    SameClasses r (l.orderedInsert r a) (a :: l) := by
  intro c
  induction l with
  | nil => rfl
  | cons b l ih =>
      by_cases hrel : r a b
      · rw [List.orderedInsert_cons_of_le r l hrel]
      · rw [List.orderedInsert_of_not_le r l hrel]
        by_cases hb : r c b ∧ r b c
        · -- what is skipped is below the element, so in another class
          have ha : ¬(r c a ∧ r a c) := fun ha =>
            hrel (IsTrans.trans a c b ha.2 hb.1)
          rw [classOf_cons_of_not ha] at ih ⊢
          rw [classOf_cons_of_rel hb, classOf_cons_of_rel hb, ih]
        · rw [classOf_cons_of_not hb, ih]
          by_cases ha : r c a ∧ r a c
          · rw [classOf_cons_of_rel ha, classOf_cons_of_rel ha,
              classOf_cons_of_not hb]
          · rw [classOf_cons_of_not ha, classOf_cons_of_not ha,
              classOf_cons_of_not hb]

/-- Sorting is stable. -/
theorem sameClasses_insertionSort [IsTrans α r] (l : List α) :
    SameClasses r (l.insertionSort r) l := by
  induction l with
  | nil => exact fun _ => rfl
  | cons a l ih =>
      intro c
      rw [List.insertionSort_cons, sameClasses_orderedInsert a _ c]
      have hrest := ih c
      by_cases ha : r c a ∧ r a c
      · rw [classOf_cons_of_rel ha, classOf_cons_of_rel ha, hrest]
      · rw [classOf_cons_of_not ha, classOf_cons_of_not ha, hrest]

end Classes

section Sorted

variable {r} [Std.Total r] {l l' : List α}

/-- The first of a sorted list is at or below what shares its classes. -/
theorem head_rel {a b : α} {l l' : List α} (hsorted : (a :: l).Pairwise r)
    (hsame : SameClasses r (a :: l) (b :: l')) : r a b := by
  have hclass : b ∈ classOf r b (a :: l) := by
    rw [hsame b, classOf_cons_of_rel ⟨refl_of r b, refl_of r b⟩]
    exact List.mem_cons_self
  rcases List.mem_cons.mp (List.mem_of_mem_filter hclass) with heq | hmem
  · rw [heq]
    exact refl_of r a
  · exact List.rel_of_pairwise_cons hsorted hmem

/-- There is one sorted list with given classes. -/
theorem eq_of_sorted_of_sameClasses (hsorted : l.Pairwise r)
    (hsorted' : l'.Pairwise r) (hsame : SameClasses r l l') : l = l' := by
  induction l generalizing l' with
  | nil =>
      cases l' with
      | nil => rfl
      | cons b l' =>
          have hclass := hsame b
          rw [classOf_cons_of_rel ⟨refl_of r b, refl_of r b⟩] at hclass
          cases hclass
  | cons a l ih =>
      cases l' with
      | nil =>
          have hclass := hsame a
          rw [classOf_cons_of_rel ⟨refl_of r a, refl_of r a⟩] at hclass
          cases hclass
      | cons b l' =>
          have hab : r a b := head_rel hsorted hsame
          have hba : r b a := head_rel hsorted' fun c => (hsame c).symm
          obtain rfl : a = b := by
            have hclass := hsame a
            rw [classOf_cons_of_rel ⟨refl_of r a, refl_of r a⟩,
              classOf_cons_of_rel ⟨hab, hba⟩] at hclass
            exact (List.cons.inj hclass).1
          refine congrArg (a :: ·) (ih hsorted.of_cons hsorted'.of_cons ?_)
          intro c
          have hclass := hsame c
          by_cases hc : r c a ∧ r a c
          · rw [classOf_cons_of_rel hc, classOf_cons_of_rel hc] at hclass
            exact (List.cons.inj hclass).2
          · rwa [classOf_cons_of_not hc, classOf_cons_of_not hc] at hclass

variable [IsTrans α r]

theorem insertionSort_eq_of_sameClasses (hsame : SameClasses r l l') :
    l.insertionSort r = l'.insertionSort r := by
  apply eq_of_sorted_of_sameClasses (List.pairwise_insertionSort r l)
    (List.pairwise_insertionSort r l')
  intro c
  rw [sameClasses_insertionSort l c, sameClasses_insertionSort l' c, hsame c]

/-- Sorting absorbs that a part in the middle is sorted. -/
theorem insertionSort_middle (left middle right : List α) :
    (left ++ middle.insertionSort r ++ right).insertionSort r =
      (left ++ middle ++ right).insertionSort r := by
  apply insertionSort_eq_of_sameClasses
  refine SameClasses.append (SameClasses.append (fun _ => rfl) ?_) fun _ => rfl
  exact sameClasses_insertionSort middle

end Sorted

end Hegel
