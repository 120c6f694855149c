/-
The size-graded order on forests of rose trees.  A forest compares by its total
number of trees, then by its number of roots, then root by root; a leaf
precedes every inner tree and inner trees compare by the forests below them.
The order is linear and well founded as soon as the order on leaf labels is.
-/
import Hegel.Lib.Shortlex
import Mathlib.Order.WellFounded

namespace Hegel

/-- A rose tree with labels at the leaves only. -/
inductive Rose (Label : Type) where
  | leaf (label : Label)
  | node (children : List (Rose Label))

namespace Rose

variable {Label : Type}

mutual

/-- How many trees occur in a tree, itself included. -/
def size : Rose Label → Nat
  | leaf _ => 1
  | node children => 1 + forestSize children

/-- How many trees occur in a forest. -/
def forestSize : List (Rose Label) → Nat
  | [] => 0
  | tree :: rest => size tree + forestSize rest

end

mutual

/-- Compare two trees; forests below a node compare by size, width and then
root by root. -/
def cmp (labelCmp : Label → Label → Ordering) :
    Rose Label → Rose Label → Ordering
  | leaf left, leaf right => labelCmp left right
  | leaf _, node _ => .lt
  | node _, leaf _ => .gt
  | node left, node right =>
      (compare (forestSize left) (forestSize right)).then
        ((compare left.length right.length).then
          (rootsCmp labelCmp left right))

/-- Compare two forests root by root, as far as both go. -/
def rootsCmp (labelCmp : Label → Label → Ordering) :
    List (Rose Label) → List (Rose Label) → Ordering
  | left :: lefts, right :: rights =>
      (cmp labelCmp left right).then (rootsCmp labelCmp lefts rights)
  | _, _ => .eq

end

/-- The order on forests: total size, then width, then root by root. -/
def forestCmp (labelCmp : Label → Label → Ordering)
    (left right : List (Rose Label)) : Ordering :=
  (compare (forestSize left) (forestSize right)).then
    ((compare left.length right.length).then (rootsCmp labelCmp left right))

theorem cmp_node (labelCmp : Label → Label → Ordering)
    (left right : List (Rose Label)) :
    cmp labelCmp (node left) (node right) = forestCmp labelCmp left right := by
  rw [cmp, forestCmp]

/-- Induction over a forest that also assumes the statement below each
root. -/
theorem forestInduction {motive : List (Rose Label) → Prop}
    (nil : motive [])
    (leaf : ∀ label rest, motive rest → motive (leaf label :: rest))
    (node : ∀ children rest, motive children → motive rest →
      motive (node children :: rest)) :
    ∀ forest, motive forest
  | [] => nil
  | .leaf label :: rest =>
      leaf label rest (forestInduction nil leaf node rest)
  | .node children :: rest =>
      node children rest (forestInduction nil leaf node children)
        (forestInduction nil leaf node rest)

section Comparison

variable {labelCmp : Label → Label → Ordering}

theorem forestCmp_eq_lt_iff (left right : List (Rose Label)) :
    forestCmp labelCmp left right = .lt ↔
      forestSize left < forestSize right ∨
        forestSize left = forestSize right ∧
          (left.length < right.length ∨
            left.length = right.length ∧
              rootsCmp labelCmp left right = .lt) := by
  rw [forestCmp, Ordering.then_eq_lt, Ordering.then_eq_lt,
    Nat.compare_eq_lt, Nat.compare_eq_eq, Nat.compare_eq_lt,
    Nat.compare_eq_eq]

theorem forestCmp_eq_eq_iff (left right : List (Rose Label)) :
    forestCmp labelCmp left right = .eq ↔
      forestSize left = forestSize right ∧ left.length = right.length ∧
        rootsCmp labelCmp left right = .eq := by
  rw [forestCmp, Ordering.then_eq_eq, Ordering.then_eq_eq,
    Nat.compare_eq_eq, Nat.compare_eq_eq]

theorem rootsCmp_cons (left right : Rose Label)
    (lefts rights : List (Rose Label)) :
    rootsCmp labelCmp (left :: lefts) (right :: rights) =
      (cmp labelCmp left right).then (rootsCmp labelCmp lefts rights) := by
  rw [rootsCmp]

/-- Exchanging the sides reverses the verdict. -/
theorem rootsCmp_swap [Std.OrientedCmp labelCmp]
    (left right : List (Rose Label)) :
    (rootsCmp labelCmp left right).swap = rootsCmp labelCmp right left := by
  induction left using forestInduction generalizing right with
  | nil => cases right <;> rfl
  | leaf label rest ih =>
      cases right with
      | nil => rfl
      | cons head tail =>
          rw [rootsCmp_cons, rootsCmp_cons, Ordering.swap_then, ih]
          cases head with
          | leaf label' =>
              rw [cmp, cmp, ← Std.OrientedCmp.eq_swap]
          | node children => rfl
  | node children rest ihChildren ihRest =>
      cases right with
      | nil => rfl
      | cons head tail =>
          rw [rootsCmp_cons, rootsCmp_cons, Ordering.swap_then, ihRest]
          cases head with
          | leaf label' => rfl
          | node children' =>
              rw [cmp, cmp, Ordering.swap_then, Ordering.swap_then,
                ihChildren, Nat.compare_swap, Nat.compare_swap]

theorem forestCmp_swap [Std.OrientedCmp labelCmp]
    (left right : List (Rose Label)) :
    (forestCmp labelCmp left right).swap = forestCmp labelCmp right left := by
  rw [forestCmp, forestCmp, Ordering.swap_then, Ordering.swap_then,
    Nat.compare_swap, Nat.compare_swap, rootsCmp_swap]

/-- Forests of one width that compare equal root by root are equal. -/
theorem eq_of_rootsCmp_eq [Std.LawfulEqCmp labelCmp]
    {left right : List (Rose Label)} (hlength : left.length = right.length)
    (hcmp : rootsCmp labelCmp left right = .eq) : left = right := by
  induction left using forestInduction generalizing right with
  | nil => exact (List.length_eq_zero_iff.mp hlength.symm).symm
  | leaf label rest ih =>
      cases right with
      | nil => simp at hlength
      | cons head tail =>
          rw [rootsCmp_cons, Ordering.then_eq_eq] at hcmp
          have hrest : rest = tail := ih (by simpa using hlength) hcmp.2
          cases head with
          | leaf label' =>
              have hlabel : label = label' := by
                simpa [cmp] using hcmp.1
              rw [hlabel, hrest]
          | node children => simp [cmp] at hcmp
  | node children rest ihChildren ihRest =>
      cases right with
      | nil => simp at hlength
      | cons head tail =>
          rw [rootsCmp_cons, Ordering.then_eq_eq] at hcmp
          have hrest : rest = tail := ihRest (by simpa using hlength) hcmp.2
          cases head with
          | leaf label' => simp [cmp] at hcmp
          | node children' =>
              rw [cmp_node, forestCmp_eq_eq_iff] at hcmp
              rw [ihChildren hcmp.1.2.1 hcmp.1.2.2, hrest]

theorem rootsCmp_self [Std.ReflCmp labelCmp] (forest : List (Rose Label)) :
    rootsCmp labelCmp forest forest = .eq := by
  induction forest using forestInduction with
  | nil => rfl
  | leaf label rest ih =>
      have hlabel : labelCmp label label = .eq := Std.ReflCmp.compare_self
      rw [rootsCmp_cons, ih, cmp, hlabel]
      rfl
  | node children rest ihChildren ihRest =>
      have hchildren : forestCmp labelCmp children children = .eq :=
        (forestCmp_eq_eq_iff children children).mpr ⟨rfl, rfl, ihChildren⟩
      rw [rootsCmp_cons, ihRest, cmp_node, hchildren]
      rfl

/-- Comparing equal is being equal. -/
theorem forestCmp_eq_eq_iff_eq [Std.LawfulEqCmp labelCmp]
    (left right : List (Rose Label)) :
    forestCmp labelCmp left right = .eq ↔ left = right := by
  rw [forestCmp_eq_eq_iff]
  refine ⟨fun h => eq_of_rootsCmp_eq h.2.1 h.2.2, fun h => ?_⟩
  subst h
  exact ⟨rfl, rfl, rootsCmp_self left⟩

/-- A step below followed by a step below, given that root by root it already
composes: the two size comparisons are orders on numbers. -/
theorem forestCmp_lt_trans_of_rootsCmp {first second third : List (Rose Label)}
    (hroots : first.length = second.length → second.length = third.length →
      rootsCmp labelCmp first second = .lt →
      rootsCmp labelCmp second third = .lt →
      rootsCmp labelCmp first third = .lt)
    (hleft : forestCmp labelCmp first second = .lt)
    (hright : forestCmp labelCmp second third = .lt) :
    forestCmp labelCmp first third = .lt := by
  rw [forestCmp_eq_lt_iff] at hleft hright ⊢
  rcases hleft with hleft | ⟨hsizeLeft, hleft⟩
  · rcases hright with hright | ⟨hsizeRight, _⟩
    · exact Or.inl (Nat.lt_trans hleft hright)
    · exact Or.inl (hsizeRight ▸ hleft)
  · rcases hright with hright | ⟨hsizeRight, hright⟩
    · exact Or.inl (hsizeLeft ▸ hright)
    · refine Or.inr ⟨hsizeLeft.trans hsizeRight, ?_⟩
      rcases hleft with hleft | ⟨hwidthLeft, hleft⟩
      · rcases hright with hright | ⟨hwidthRight, _⟩
        · exact Or.inl (Nat.lt_trans hleft hright)
        · exact Or.inl (hwidthRight ▸ hleft)
      · rcases hright with hright | ⟨hwidthRight, hright⟩
        · exact Or.inl (hwidthLeft ▸ hright)
        · exact Or.inr ⟨hwidthLeft.trans hwidthRight,
            hroots hwidthLeft hwidthRight hleft hright⟩

/-- One root position of a comparison chain: either the heads already decide
it, or they agree and the tails do. -/
theorem rootsCmp_cons_lt_trans {a b c : Rose Label}
    {as bs cs : List (Rose Label)}
    (hheads : cmp labelCmp a b = .lt → cmp labelCmp b c = .lt →
      cmp labelCmp a c = .lt)
    (hequal : ∀ x y : Rose Label, cmp labelCmp x y = .eq → x = y)
    (htails : rootsCmp labelCmp as bs = .lt →
      rootsCmp labelCmp bs cs = .lt → rootsCmp labelCmp as cs = .lt)
    (hleft : rootsCmp labelCmp (a :: as) (b :: bs) = .lt)
    (hright : rootsCmp labelCmp (b :: bs) (c :: cs) = .lt) :
    rootsCmp labelCmp (a :: as) (c :: cs) = .lt := by
  rw [rootsCmp_cons, Ordering.then_eq_lt] at hleft hright ⊢
  rcases hleft with hleft | ⟨hab, hleft⟩
  · rcases hright with hright | ⟨hbc, _⟩
    · exact Or.inl (hheads hleft hright)
    · exact Or.inl (hequal b c hbc ▸ hleft)
  · have hsame := hequal a b hab
    subst hsame
    rcases hright with hright | ⟨hac, hright⟩
    · exact Or.inl hright
    · exact Or.inr ⟨hac, htails hleft hright⟩

theorem eq_of_cmp_eq [Std.LawfulEqCmp labelCmp] {left right : Rose Label}
    (hcmp : cmp labelCmp left right = .eq) : left = right := by
  have hroots : rootsCmp labelCmp [left] [right] = .eq := by
    rw [rootsCmp_cons, hcmp]
    rfl
  have hsingle : [left] = [right] := eq_of_rootsCmp_eq rfl hroots
  exact (List.cons.inj hsingle).1

theorem rootsCmp_lt_trans [Std.TransCmp labelCmp] [Std.LawfulEqCmp labelCmp]
    {first second third : List (Rose Label)}
    (hleft : rootsCmp labelCmp first second = .lt)
    (hright : rootsCmp labelCmp second third = .lt) :
    rootsCmp labelCmp first third = .lt := by
  induction first using forestInduction generalizing second third with
  | nil => simp [rootsCmp] at hleft
  | leaf label rest ih =>
      cases second with
      | nil => simp [rootsCmp] at hleft
      | cons head tail =>
          cases third with
          | nil => simp [rootsCmp] at hright
          | cons head' tail' =>
              refine rootsCmp_cons_lt_trans ?_ (fun _ _ => eq_of_cmp_eq)
                ih hleft hright
              intro hab hbc
              cases head with
              | leaf label' =>
                  cases head' with
                  | leaf label'' =>
                      rw [cmp] at hab hbc ⊢
                      exact Std.TransCmp.lt_trans hab hbc
                  | node children => rfl
              | node children =>
                  cases head' with
                  | leaf label'' => simp [cmp] at hbc
                  | node children' => rfl
  | node children rest ihChildren ihRest =>
      cases second with
      | nil => simp [rootsCmp] at hleft
      | cons head tail =>
          cases third with
          | nil => simp [rootsCmp] at hright
          | cons head' tail' =>
              refine rootsCmp_cons_lt_trans ?_ (fun _ _ => eq_of_cmp_eq)
                ihRest hleft hright
              intro hab hbc
              cases head with
              | leaf label' => simp [cmp] at hab
              | node children' =>
                  cases head' with
                  | leaf label'' => simp [cmp] at hbc
                  | node children'' =>
                      rw [cmp_node] at hab hbc ⊢
                      exact forestCmp_lt_trans_of_rootsCmp
                        (fun _ _ => ihChildren) hab hbc

/-- The forest order is transitive. -/
theorem forestCmp_lt_trans [Std.TransCmp labelCmp]
    [Std.LawfulEqCmp labelCmp] {first second third : List (Rose Label)}
    (hleft : forestCmp labelCmp first second = .lt)
    (hright : forestCmp labelCmp second third = .lt) :
    forestCmp labelCmp first third = .lt :=
  forestCmp_lt_trans_of_rootsCmp (fun _ _ => rootsCmp_lt_trans) hleft hright

instance [Std.OrientedCmp labelCmp] :
    Std.OrientedCmp (forestCmp labelCmp) where
  eq_swap := (forestCmp_swap _ _).symm

instance [Std.LawfulEqCmp labelCmp] :
    Std.LawfulEqCmp (forestCmp labelCmp) where
  compare_self := (forestCmp_eq_eq_iff_eq _ _).mpr rfl
  eq_of_compare := (forestCmp_eq_eq_iff_eq _ _).mp

instance [Std.TransCmp labelCmp] [Std.LawfulEqCmp labelCmp] :
    Std.TransCmp (forestCmp labelCmp) where
  isLE_trans := by
    intro a b c
    exact isLE_trans_of_lt_trans (forestCmp labelCmp)
      fun _ _ _ => forestCmp_lt_trans

end Comparison

section WellFounded

variable {labelCmp : Label → Label → Ordering}

/-- The trees whose forests below are bounded in size. -/
def Bounded (bound : Nat) : Rose Label → Prop
  | leaf _ => True
  | node children => forestSize children < bound

theorem size_le_forestSize {tree : Rose Label} {forest : List (Rose Label)}
    (hmem : tree ∈ forest) : size tree ≤ forestSize forest := by
  induction forest with
  | nil => simp at hmem
  | cons head tail ih =>
      rw [forestSize]
      rcases List.mem_cons.mp hmem with rfl | htail
      · omega
      · have hle := ih htail
        omega

theorem bounded_of_mem {bound : Nat} {tree : Rose Label}
    {forest : List (Rose Label)} (hforest : forestSize forest ≤ bound)
    (hmem : tree ∈ forest) : Bounded bound tree := by
  have hle := size_le_forestSize hmem
  cases tree with
  | leaf label => exact True.intro
  | node children =>
      rw [size] at hle
      show forestSize children < bound
      omega

/-- Root by root, the verdict below is the dictionary order. -/
theorem lex_of_rootsCmp_eq_lt [Std.LawfulEqCmp labelCmp]
    {Kept : Rose Label → Prop} {left right : List {tree // Kept tree}}
    (hcmp : rootsCmp labelCmp (left.map Subtype.val)
      (right.map Subtype.val) = .lt) :
    List.Lex (fun a b => cmp labelCmp a.val b.val = .lt) left right := by
  induction left generalizing right with
  | nil => simp [rootsCmp] at hcmp
  | cons head tail ih =>
      cases right with
      | nil => simp [rootsCmp] at hcmp
      | cons head' tail' =>
          rw [List.map_cons, List.map_cons, rootsCmp_cons,
            Ordering.then_eq_lt] at hcmp
          rcases hcmp with hcmp | ⟨heq, hcmp⟩
          · exact List.Lex.rel hcmp
          · have hsame : head = head' := Subtype.ext (eq_of_cmp_eq heq)
            rw [hsame]
            exact List.Lex.cons (ih hcmp)

/-- A forest's size, and its roots as trees with smaller forests below. -/
def gradedKey (bound : Nat)
    (forest : {forest : List (Rose Label) // forestSize forest ≤ bound}) :
    Nat × List {tree : Rose Label // Bounded bound tree} :=
  (forestSize forest.val,
    forest.val.attachWith (Bounded bound)
      fun _ hmem => bounded_of_mem forest.property hmem)

theorem wellFounded_boundedForests [Std.LawfulEqCmp labelCmp] {bound : Nat}
    (htrees : WellFounded
      fun a b : {tree : Rose Label // Bounded bound tree} =>
        cmp labelCmp a.val b.val = .lt) :
    WellFounded
      fun a b : {forest : List (Rose Label) // forestSize forest ≤ bound} =>
        forestCmp labelCmp a.val b.val = .lt := by
  have hkey := Nat.lt_wfRel.wf.prod_lex (List.Shortlex.wf htrees)
  refine Subrelation.wf ?_ (InvImage.wf (gradedKey bound) hkey)
  intro left right hcmp
  rw [forestCmp_eq_lt_iff] at hcmp
  rcases hcmp with hsize | ⟨hsize, hwidth | ⟨hwidth, hroots⟩⟩
  · exact Prod.Lex.left _ _ hsize
  · have hshort : List.Shortlex
        (fun a b : {tree : Rose Label // Bounded bound tree} =>
          cmp labelCmp a.val b.val = .lt)
        (gradedKey bound left).2 (gradedKey bound right).2 := by
      apply List.Shortlex.of_length_lt
      simpa [gradedKey] using hwidth
    exact Prod.lex_def.mpr (Or.inr ⟨hsize, hshort⟩)
  · have hshort : List.Shortlex
        (fun a b : {tree : Rose Label // Bounded bound tree} =>
          cmp labelCmp a.val b.val = .lt)
        (gradedKey bound left).2 (gradedKey bound right).2 := by
      apply List.Shortlex.of_lex
      · simpa [gradedKey] using hwidth
      · apply lex_of_rootsCmp_eq_lt
        simpa [gradedKey, List.attachWith_map_subtype_val] using hroots
    exact Prod.lex_def.mpr (Or.inr ⟨hsize, hshort⟩)

/-- Trees with bounded forests below are well ordered: leaves by their labels,
inner trees by the forests below them. -/
theorem wellFounded_boundedTrees [Std.LawfulEqCmp labelCmp]
    (hlabel : WellFounded fun a b => labelCmp a b = .lt) (bound : Nat) :
    WellFounded fun a b : {tree : Rose Label // Bounded bound tree} =>
      cmp labelCmp a.val b.val = .lt := by
  have hleaf : ∀ label (h : Bounded bound (leaf label)),
      Acc (fun a b : {tree : Rose Label // Bounded bound tree} =>
        cmp labelCmp a.val b.val = .lt) ⟨leaf label, h⟩ := by
    intro label
    induction label using hlabel.induction with
    | h label ih =>
        intro h
        refine Acc.intro _ ?_
        rintro ⟨tree, htree⟩ hcmp
        cases tree with
        | leaf label' => exact ih label' (by simpa [cmp] using hcmp) htree
        | node children => simp [cmp] at hcmp
  have hnode : ∀ children (h : Bounded bound (node children)),
      Acc (fun a b : {tree : Rose Label // Bounded bound tree} =>
        cmp labelCmp a.val b.val = .lt) ⟨node children, h⟩ := by
    cases bound with
    | zero => exact fun children h => absurd h (Nat.not_lt_zero _)
    | succ bound =>
        have hforests := wellFounded_boundedForests
          (wellFounded_boundedTrees hlabel bound)
        have hchildren : ∀ forest :
            {forest : List (Rose Label) // forestSize forest ≤ bound},
            ∀ h : Bounded (bound + 1) (node forest.val),
            Acc (fun a b : {tree : Rose Label // Bounded (bound + 1) tree} =>
              cmp labelCmp a.val b.val = .lt) ⟨node forest.val, h⟩ := by
          intro forest
          induction forest using hforests.induction with
          | h forest ih =>
              intro h
              refine Acc.intro _ ?_
              rintro ⟨tree, htree⟩ hcmp
              cases tree with
              | leaf label => exact hleaf label htree
              | node children =>
                  rw [cmp_node] at hcmp
                  exact ih ⟨children, Nat.le_of_lt_succ htree⟩ hcmp htree
        exact fun children h =>
          hchildren ⟨children, Nat.le_of_lt_succ h⟩ h
  refine ⟨?_⟩
  rintro ⟨tree, htree⟩
  cases tree with
  | leaf label => exact hleaf label htree
  | node children => exact hnode children htree

/-- There is no infinite descent among forests. -/
theorem wellFounded_forestCmp [Std.LawfulEqCmp labelCmp]
    (hlabel : WellFounded fun a b => labelCmp a b = .lt) :
    WellFounded fun a b : List (Rose Label) =>
      forestCmp labelCmp a b = .lt := by
  refine ⟨fun forest => ?_⟩
  have hbounded := wellFounded_boundedForests
    (wellFounded_boundedTrees hlabel (forestSize forest))
  -- Everything below a forest is at most as large, so descent stays inside.
  have hinside : ∀ inner : {inner : List (Rose Label) //
      forestSize inner ≤ forestSize forest},
      Acc (fun a b : List (Rose Label) => forestCmp labelCmp a b = .lt)
        inner.val := by
    intro inner
    induction inner using hbounded.induction with
    | h inner ih =>
        refine Acc.intro _ fun smaller hcmp => ?_
        have hle : forestSize smaller ≤ forestSize inner.val := by
          rw [forestCmp_eq_lt_iff] at hcmp
          rcases hcmp with h | ⟨h, _⟩ <;> omega
        exact ih ⟨smaller, hle.trans inner.property⟩ hcmp
  exact hinside ⟨forest, Nat.le_refl _⟩

end WellFounded

end Rose

end Hegel
